import Mathlib

/-! Reference-counted objects. A table holds objects that carry a count; users
point to at most one of them. The table is balanced when each count is the
number of users and nothing unused is kept. -/
namespace Ucore.RefCount

variable {α β : Type*}

/-- How many of `users` point to an object. -/
def tally (points : β → Option Nat) (users : List β) (id : Nat) : Nat :=
  users.countP fun user => points user = some id

/-- Every object's count is its number of users, it has one, and no user points
to an object that is not there. -/
def Balanced (count : α → Int) (table : Nat → Option α) (users : Nat → Nat) : Prop :=
  ∀ id, match table id with
    | none => users id = 0
    | some object => count object = users id ∧ 0 < users id

variable {count : α → Int} {table : Nat → Option α} {users : Nat → Nat} {points : β → Option Nat}
  {holders rest : List β} {user : β} {old object : α} {id : Nat}

theorem tally_perm (perm : holders.Perm rest) : tally points holders = tally points rest :=
  funext fun _ => perm.countP_eq _

/-- The users of each object with one more. -/
def withUser (users : Nat → Nat) : Option Nat → Nat → Nat
  | none => users
  | some id => Function.update users id (users id + 1)

theorem tally_cons (user : β) (rest : List β) :
    tally points (user :: rest) = withUser (tally points rest) (points user) := by
  funext other
  cases at_id : points user with
  | none => simp [tally, withUser, at_id]
  | some id =>
    by_cases same : other = id
    · subst same
      simp [tally, withUser, at_id]
    · have apart : ¬ id = other := fun eq => same eq.symm
      simp [tally, withUser, at_id, same, apart]

/-- Users that change without pointing elsewhere. -/
theorem tally_map (change : β → β) (same : ∀ user ∈ holders, points (change user) = points user) :
    tally points (holders.map change) = tally points holders := by
  funext id
  simp only [tally, List.countP_map]
  refine List.countP_congr fun user member => ?_
  simp [same user member]

theorem Balanced.present (balanced : Balanced count table users) (used : 0 < users id) :
    ∃ object, table id = some object ∧ count object = users id := by
  have at_id := balanced id
  cases found : table id with
  | none =>
    rw [found] at at_id
    omega
  | some object =>
    rw [found] at at_id
    exact ⟨object, rfl, at_id.1⟩

theorem Balanced.absent (balanced : Balanced count table users) (free : table id = none) :
    users id = 0 := by
  have at_id := balanced id
  rw [free] at at_id
  exact at_id

theorem Balanced.counted (balanced : Balanced count table users) (found : table id = some object) :
    count object = users id ∧ 0 < users id := by
  have at_id := balanced id
  rw [found] at at_id
  exact at_id

/-- Away from one object only that object's entry changes. -/
theorem Balanced.update (balanced : Balanced count table users) (id : Nat) (entry : Option α)
    (n : Nat) (here : match entry with
      | none => n = 0
      | some object => count object = (n : Nat) ∧ 0 < n) :
    Balanced count (Function.update table id entry) (Function.update users id n) := by
  intro other
  by_cases same : other = id
  · subst same
    rw [Function.update_self, Function.update_self]
    exact here
  · rw [Function.update_of_ne same, Function.update_of_ne same]
    exact balanced other

/-- A new object with its first user. -/
theorem Balanced.create (balanced : Balanced count table users) (fresh : table id = none)
    (one : count object = 1) :
    Balanced count (Function.update table id (some object))
      (Function.update users id (users id + 1)) := by
  refine balanced.update id (some object) _ ⟨?_, by omega⟩
  rw [balanced.absent fresh, one]
  rfl

/-- One more user. -/
theorem Balanced.share (balanced : Balanced count table users) (found : table id = some old)
    (more : count object = count old + 1) :
    Balanced count (Function.update table id (some object))
      (Function.update users id (users id + 1)) := by
  have counted := balanced.counted found
  refine balanced.update id (some object) _ ⟨?_, by omega⟩
  rw [more, counted.1]
  push_cast
  rfl

/-- An object that changes but for its count. -/
theorem Balanced.modify (balanced : Balanced count table users) (found : table id = some old)
    (same : count object = count old) :
    Balanced count (Function.update table id (some object)) users := by
  have counted := balanced.counted found
  have updated := balanced.update id (some object) (users id)
    ⟨same.trans counted.1, counted.2⟩
  rwa [Function.update_eq_self] at updated

/-- One user of `more` users of `id` leaves and the object stays. -/
theorem Balanced.leave (balanced : Balanced count table (Function.update users id (users id + 1)))
    (found : table id = some old) (less : count object = count old - 1) (others : count object ≠ 0) :
    Balanced count (Function.update table id (some object)) users := by
  have counted := balanced.counted found
  rw [Function.update_self] at counted
  have updated := balanced.update id (some object) (users id)
    ⟨by omega, by omega⟩
  rwa [Function.update_idem, Function.update_eq_self] at updated

/-- The last user leaves and the object goes. -/
theorem Balanced.destroy
    (balanced : Balanced count table (Function.update users id (users id + 1)))
    (found : table id = some old) (last : count old - 1 = 0) :
    Balanced count (Function.update table id none) users := by
  have counted := balanced.counted found
  rw [Function.update_self] at counted
  have updated := balanced.update id none (users id) (by simp only; omega)
  rwa [Function.update_idem, Function.update_eq_self] at updated

end Ucore.RefCount
