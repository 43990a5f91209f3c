import Mathlib

/-! Cells by position, rearranged inside a range and sorted on it, for a comparison
that is a total preorder. -/
namespace Ucore.Ranges

variable {α : Type*} {first second third : ℕ → α} {start n i j : ℕ}

/-- A comparison with a sign, as sorting functions take one: it turns round with its arguments, and what is not
above can be chained. -/
structure Compares (cmp : α → α → Int) : Prop where
  turns : ∀ x y, cmp x y < 0 ↔ 0 < cmp y x
  chains : ∀ x y z, cmp x y ≤ 0 → cmp y z ≤ 0 → cmp x z ≤ 0

namespace Compares
variable {cmp : α → α → Int} {x y z : α}

theorem self (compares : Compares cmp) (x : α) : cmp x x = 0 := by
  have turns := compares.turns x x
  omega

theorem le_of_nonneg (compares : Compares cmp) (above : 0 ≤ cmp x y) : cmp y x ≤ 0 := by
  have turns := compares.turns x y
  omega

end Compares

/-- The cells of `after` are those of `before`, in another order, in `n` positions from `start` on. -/
def Rearranged (start n : ℕ) (before after : ℕ → α) : Prop :=
  ∃ order : Equiv.Perm ℕ, (∀ i, i < start ∨ start + n ≤ i → order i = i) ∧ after = before ∘ order

/-- Every two cells of the range stand in order. -/
def SortedOn (cmp : α → α → Int) (cells : ℕ → α) (start n : ℕ) : Prop :=
  ∀ i j, start ≤ i → i < j → j < start + n → cmp (cells i) (cells j) ≤ 0

namespace Rearranged

theorem refl (start n : ℕ) (cells : ℕ → α) : Rearranged start n cells cells := ⟨1, fun _ _ => rfl, rfl⟩

theorem trans (one : Rearranged start n first second) (two : Rearranged start n second third) : Rearranged start n first third := by
  obtain ⟨order, fixes, rfl⟩ := one
  obtain ⟨order', fixes', rfl⟩ := two
  refine ⟨order * order', fun i outside => ?_, rfl⟩
  rw [Equiv.Perm.mul_apply, fixes' i outside, fixes i outside]

theorem swap (inside : start ≤ i ∧ i < start + n) (inside' : start ≤ j ∧ j < start + n) :
    Rearranged start n first (first ∘ Equiv.swap i j) := by
  refine ⟨Equiv.swap i j, fun k outside => ?_, rfl⟩
  apply Equiv.swap_apply_of_ne_of_ne <;> omega

theorem widen {start' n' : ℕ} (one : Rearranged start n first second) (front : start' ≤ start) (back : start + n ≤ start' + n') :
    Rearranged start' n' first second := by
  obtain ⟨order, fixes, rfl⟩ := one
  exact ⟨order, fun i outside => fixes i (by omega), rfl⟩

theorem outside (one : Rearranged start n first second) (outside : i < start ∨ start + n ≤ i) : second i = first i := by
  obtain ⟨order, fixes, rfl⟩ := one
  rw [Function.comp_apply, fixes i outside]

/-- The cell that is in a position of the range now was in one before. -/
theorem source (one : Rearranged start n first second) (inside : start ≤ i ∧ i < start + n) :
    ∃ j, (start ≤ j ∧ j < start + n) ∧ second i = first j := by
  obtain ⟨order, fixes, rfl⟩ := one
  refine ⟨order i, ?_, rfl⟩
  by_contra left
  have same : order i = i := order.injective (fixes (order i) (by omega))
  omega

/-- In a range, the list of the cells is a permutation of the list before. -/
theorem perm (one : Rearranged start n first second) : ((List.range' start n).map second).Perm ((List.range' start n).map first) := by
  obtain ⟨order, fixes, rfl⟩ := one
  rw [← List.map_map]
  apply List.Perm.map
  have distinct : (List.range' start n).Nodup := List.nodup_range'
  apply (List.perm_ext_iff_of_nodup (distinct.map order.injective) distinct).mpr
  have keeps (i : ℕ) : (start ≤ order i ∧ order i < start + n) ↔ start ≤ i ∧ i < start + n := by
    by_cases outside : i < start ∨ start + n ≤ i
    · rw [fixes i outside]
    · have inside : ¬ (order i < start ∨ start + n ≤ order i) := fun out => outside (order.injective (fixes (order i) out) ▸ out)
      omega
  intro i
  simp only [List.mem_map, List.mem_range'_1]
  constructor
  · rintro ⟨j, inside, rfl⟩
    exact (keeps j).mpr inside
  · intro inside
    refine ⟨order.symm i, (keeps _).mp ?_, order.apply_symm_apply i⟩
    rwa [order.apply_symm_apply]

end Rearranged
end Ucore.Ranges
