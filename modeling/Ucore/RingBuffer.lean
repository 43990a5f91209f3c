import Mathlib

/-! A buffer of fixed capacity that holds the end of a growing sequence: position
`p` of the sequence is in slot `p` modulo the capacity, for the positions from a
lower end on. -/
namespace Ucore.RingBuffer

variable {β : Type*} {n : Nat} [NeZero n] {buffer : Fin n → β} {stream : List β} {low low' p q : Nat} {c : β}

/-- The slots hold the sequence from position `low` on. -/
def Window (buffer : Fin n → β) (stream : List β) (low : Nat) : Prop :=
  ∀ p, low ≤ p → p < stream.length → stream[p]? = some (buffer (Fin.ofNat n p))

theorem Window.empty (buffer : Fin n → β) : Window buffer [] 0 := nofun

theorem Window.drop (window : Window buffer stream low) (later : low ≤ low') : Window buffer stream low' :=
  fun p above => window p (later.trans above)

/-- Positions less than a capacity apart have slots of their own. -/
theorem ofNat_ne (below : p < q) (near : q < p + n) : Fin.ofNat n p ≠ Fin.ofNat n q := by
  intro same
  have congruent : p % n = q % n := congrArg Fin.val same
  have apart : (q - p) % n = 0 := Nat.sub_mod_eq_zero_of_mod_eq congruent.symm
  rw [Nat.mod_eq_of_lt (by omega)] at apart
  omega

/-- The next position is stored while the window has room. -/
theorem Window.push (window : Window buffer stream low) (room : stream.length < low + n) :
    Window (Function.update buffer (Fin.ofNat n stream.length) c) (stream ++ [c]) low := by
  intro p above below
  rw [List.length_append, List.length_singleton] at below
  by_cases last : p = stream.length
  · subst last
    simp
  · have earlier : p < stream.length := by omega
    rw [List.getElem?_append_left earlier, window p above earlier,
      Function.update_of_ne (ofNat_ne earlier (by omega))]

theorem ofNat_add_self (p : Nat) : Fin.ofNat n (p + n) = Fin.ofNat n p := by
  apply Fin.ext
  exact Nat.add_mod_right p n

end Ucore.RingBuffer
