import Mathlib

/-! Things held in common. Each of finitely many holders holds so many of every thing;
when one of them changes, the total is what the others hold and what that one holds now. -/
namespace Ucore.Holdings

variable {π α κ : Type*} [Fintype π] [DecidableEq π] {holds : α → κ → Nat} {holder : π → α} {p : π} {thing : κ}

/-- What all holders together hold of a thing. -/
def total (holds : α → κ → Nat) (holder : π → α) (thing : κ) : Nat := ∑ p, holds (holder p) thing

/-- What all but one hold of it. -/
def others (holds : α → κ → Nat) (holder : π → α) (p : π) (thing : κ) : Nat := ∑ q ∈ {p}ᶜ, holds (holder q) thing

theorem total_update (p : π) (now : α) :
    total holds (Function.update holder p now) thing = others holds holder p thing + holds now thing := by
  have same : ∑ q ∈ {p}ᶜ, holds (Function.update holder p now q) thing = others holds holder p thing := by
    apply Finset.sum_congr rfl
    intro q apart
    rw [Function.update_of_ne (by simpa using apart)]
  rw [total, Fintype.sum_eq_add_sum_compl p, same, Function.update_self, Nat.add_comm]

theorem total_eq (p : π) : total holds holder thing = others holds holder p thing + holds (holder p) thing := by
  rw [total, Fintype.sum_eq_add_sum_compl p, others, Nat.add_comm]

@[simp] theorem others_update (p : π) (now : α) :
    others holds (Function.update holder p now) p thing = others holds holder p thing := by
  apply Finset.sum_congr rfl
  intro q apart
  rw [Function.update_of_ne (by simpa using apart)]

omit [DecidableEq π] in
theorem le_total (p : π) : holds (holder p) thing ≤ total holds holder thing :=
  Finset.single_le_sum (f := fun p => holds (holder p) thing) (fun _ _ => Nat.zero_le _) (Finset.mem_univ p)

omit [DecidableEq π] in
theorem total_eq_zero : total holds holder thing = 0 ↔ ∀ p, holds (holder p) thing = 0 := by
  simp [total]

omit [DecidableEq π] in
/-- What is held once has one holder. -/
theorem holder_unique (once : total holds holder thing = 1) (mine : 0 < holds (holder p) thing)
    (yours : 0 < holds (holder q) thing) : p = q := by
  classical
  by_contra apart
  have both : ∑ r ∈ {p, q}, holds (holder r) thing ≤ total holds holder thing :=
    Finset.sum_le_univ_sum_of_nonneg fun _ => Nat.zero_le _
  rw [Finset.sum_pair apart] at both
  omega

end Ucore.Holdings
