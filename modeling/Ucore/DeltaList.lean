import Mathlib

/-! Delta lists: alarms in the order they are due, each with its delay after the
one before it. `times` gives every alarm's delay from now, and the operations on
the deltas are operations on these. -/
namespace Ucore.DeltaList

variable {α : Type*}

/-- The delays from now: the running sums of the deltas on top of a base. -/
def times (base : Nat) : List (α × Nat) → List (α × Nat)
  | [] => []
  | (alarm, delta) :: rest => (alarm, base + delta) :: times (base + delta) rest

def insert (alarm : α) (delay : Nat) : List (α × Nat) → List (α × Nat)
  | [] => [(alarm, delay)]
  | (first, delta) :: rest =>
    if delay < delta then (alarm, delay) :: (first, delta - delay) :: rest
    else (first, delta) :: insert alarm (delay - delta) rest

/-- The delta of a removed alarm goes to the next one. -/
def inherit (delta : Nat) : List (α × Nat) → List (α × Nat)
  | [] => []
  | (alarm, delay) :: rest => (alarm, delay + delta) :: rest

def remove (gone : α → Bool) : List (α × Nat) → List (α × Nat)
  | [] => []
  | (first, delta) :: rest =>
    if gone first then inherit delta rest else (first, delta) :: remove gone rest

/-- One tick shortens the first delta only. -/
def tick : List (α × Nat) → List (α × Nat)
  | [] => []
  | (first, delta) :: rest => (first, delta - 1) :: rest

/-- The alarms with no delay left stand at the front. -/
def ripe (alarms : List (α × Nat)) : List (α × Nat) := alarms.takeWhile fun alarm => alarm.2 = 0

def later (alarms : List (α × Nat)) : List (α × Nat) := alarms.dropWhile fun alarm => alarm.2 = 0

/-- The first alarm is not due yet. -/
def Pending (alarms : List (α × Nat)) : Prop := ∀ first ∈ alarms.head?, first.2 ≠ 0

/-- The running sums, spelled out. -/
theorem mem_times {alarms : List (α × Nat)} :
    (alarm, delay) ∈ times base alarms ↔ ∃ before delta after,
      alarms = before ++ (alarm, delta) :: after ∧ delay = base + (before.map Prod.snd).sum + delta := by
  induction alarms generalizing base with
  | nil => simp [times]
  | cons first rest ih =>
    obtain ⟨other, delta⟩ := first
    simp only [times, List.mem_cons, Prod.mk.injEq, ih]
    constructor
    · rintro (⟨rfl, rfl⟩ | ⟨before, last, after, rfl, rfl⟩)
      · exact ⟨[], delta, rest, rfl, by simp⟩
      · exact ⟨(other, delta) :: before, last, after, rfl, by simp; omega⟩
    · rintro ⟨before, last, after, split, rfl⟩
      cases before with
      | nil =>
        obtain ⟨⟨rfl, rfl⟩, rfl⟩ := by simpa using split
        exact .inl ⟨rfl, by simp⟩
      | cons head before =>
        obtain ⟨rfl, rfl⟩ := by simpa using split
        exact .inr ⟨before, last, after, rfl, by simp; omega⟩

theorem times_keys (base : Nat) (alarms : List (α × Nat)) :
    (times base alarms).map Prod.fst = alarms.map Prod.fst := by
  induction alarms generalizing base with
  | nil => rfl
  | cons first rest ih => simp [times, ih]

theorem le_times {alarms : List (α × Nat)} (listed : alarm ∈ times base alarms) :
    base ≤ alarm.2 := by
  obtain ⟨before, delta, after, -, sum⟩ := mem_times.mp listed
  omega

/-- Every alarm of a list whose first is not due is still to come. -/
theorem Pending.lt_times {alarms : List (α × Nat)} (pending : Pending alarms)
    (listed : alarm ∈ times base alarms) : base < alarm.2 := by
  cases alarms with
  | nil => cases listed
  | cons first rest =>
    have positive : first.2 ≠ 0 := pending first rfl
    rcases List.mem_cons.mp listed with rfl | listed
    · simp only; omega
    · have := le_times listed
      omega

/-- Raising the base raises every delay. -/
theorem times_add (base more : Nat) (alarms : List (α × Nat)) :
    times (base + more) alarms = (times base alarms).map fun alarm => (alarm.1, alarm.2 + more) := by
  induction alarms generalizing base with
  | nil => rfl
  | cons first rest ih =>
    simp only [times, List.map_cons, ← ih]
    exact congrArg₂ List.cons (by simp; omega) (congrArg (times · rest) (by omega))

theorem times_insert (base delay : Nat) (alarm : α) (alarms : List (α × Nat)) :
    (times base (insert alarm delay alarms)).Perm ((alarm, base + delay) :: times base alarms) := by
  induction alarms generalizing base delay with
  | nil => exact .refl _
  | cons first rest ih =>
    obtain ⟨other, delta⟩ := first
    by_cases sooner : delay < delta
    · have sum : base + delay + (delta - delay) = base + delta := by omega
      simp [insert, sooner, times, sum]
    · have sum : base + delta + (delay - delta) = base + delay := by omega
      simp only [insert, sooner, if_false, times]
      refine ((ih (base + delta) (delay - delta)).cons _).trans ?_
      rw [sum]
      exact .swap _ _ _

theorem insert_perm_keys (delay : Nat) (alarm : α) (alarms : List (α × Nat)) :
    ((insert alarm delay alarms).map Prod.fst).Perm (alarm :: alarms.map Prod.fst) := by
  have keys := (times_insert 0 delay alarm alarms).map Prod.fst
  simpa only [List.map_cons, times_keys] using keys

/-- A new alarm with a delay of its own leaves the first one pending. -/
theorem Pending.insert {alarms : List (α × Nat)} (pending : Pending alarms) (positive : 0 < delay) :
    Pending (insert alarm delay alarms) := by
  cases alarms with
  | nil =>
    rintro first ⟨⟩
    exact positive.ne'
  | cons head rest =>
    obtain ⟨other, delta⟩ := head
    by_cases sooner : delay < delta
    · simp only [Pending, DeltaList.insert, sooner, if_true]
      rintro first ⟨⟩
      exact positive.ne'
    · simp only [Pending, DeltaList.insert, sooner, if_false]
      rintro first ⟨⟩
      exact pending _ rfl

theorem times_inherit (base delta : Nat) (alarms : List (α × Nat)) :
    times base (inherit delta alarms) = times (base + delta) alarms := by
  cases alarms with
  | nil => rfl
  | cons first rest =>
    have sum : base + (first.2 + delta) = base + delta + first.2 := by omega
    simp only [inherit, times, sum]

/-- Removing an alarm leaves the delays of all the others. -/
theorem times_remove (base : Nat) (gone : α → Bool) (alarms : List (α × Nat)) :
    times base (remove gone alarms) = (times base alarms).eraseP fun alarm => gone alarm.1 := by
  induction alarms generalizing base with
  | nil => rfl
  | cons first rest ih =>
    by_cases gone' : gone first.1
    · simp [remove, gone', times, times_inherit]
    · simp [remove, gone', times, ih]

theorem Pending.remove {alarms : List (α × Nat)} (pending : Pending alarms) (gone : α → Bool) :
    Pending (remove gone alarms) := by
  cases alarms with
  | nil => exact pending
  | cons head rest =>
    have positive : head.2 ≠ 0 := pending head rfl
    by_cases gone' : gone head.1
    · simp only [Pending, DeltaList.remove, gone', if_true]
      cases rest with
      | nil => rintro first ⟨⟩
      | cons next rest =>
        rintro first ⟨⟩
        simp only
        omega
    · simp only [Pending, DeltaList.remove, gone', Bool.false_eq_true, if_false]
      rintro first ⟨⟩
      exact positive

theorem pending_later (alarms : List (α × Nat)) : Pending (later alarms) := by
  intro first head
  have := List.head?_dropWhile_not (fun alarm : α × Nat => decide (alarm.2 = 0)) alarms
  rw [show List.dropWhile (fun alarm : α × Nat => decide (alarm.2 = 0)) alarms = later alarms from rfl,
    Option.mem_def.mp head] at this
  simpa using this

theorem ripe_zero {alarms : List (α × Nat)} (listed : alarm ∈ ripe alarms) : alarm.2 = 0 := by
  simpa using List.mem_takeWhile_imp listed

/-- The due alarms take nothing off the delays of the later ones. -/
theorem times_ripe_later (base : Nat) (alarms : List (α × Nat)) :
    times base alarms = (ripe alarms).map (fun alarm => (alarm.1, base)) ++ times base (later alarms) := by
  induction alarms with
  | nil => rfl
  | cons first rest ih =>
    obtain ⟨alarm, delta⟩ := first
    by_cases none_left : delta = 0
    · subst none_left
      simpa [times, ripe, later] using ih
    · simp [ripe, later, none_left]

/-- A tick takes one off every delay of a pending list. -/
theorem times_tick {alarms : List (α × Nat)} (pending : Pending alarms) :
    times (base + 1) (tick alarms) = times base alarms := by
  cases alarms with
  | nil => rfl
  | cons first rest =>
    have positive : first.2 ≠ 0 := pending first rfl
    have sum : base + 1 + (first.2 - 1) = base + first.2 := by omega
    simp only [tick, times, sum]

/-- After a tick the due alarms are those with a delay of one, and every other
alarm is one tick closer. -/
theorem mem_times_tick {alarms : List (α × Nat)} (pending : Pending alarms) :
    (alarm, delay + 1) ∈ times 0 alarms ↔
      delay = 0 ∧ (alarm, 0) ∈ ripe (tick alarms) ∨
        0 < delay ∧ (alarm, delay) ∈ times 0 (later (tick alarms)) := by
  have shifted : (alarm, delay + 1) ∈ times 0 alarms ↔ (alarm, delay) ∈ times 0 (tick alarms) := by
    rw [← times_tick pending, times_add, List.mem_map]
    constructor
    · rintro ⟨⟨other, before⟩, listed, same⟩
      obtain ⟨rfl, rfl⟩ := by simpa using same
      exact listed
    · intro listed
      exact ⟨_, listed, rfl⟩
  rw [shifted, times_ripe_later, List.mem_append, List.mem_map]
  constructor
  · rintro (⟨⟨other, delta⟩, listed, same⟩ | listed)
    · obtain rfl : delta = 0 := ripe_zero listed
      obtain ⟨rfl, rfl⟩ := by simpa using same
      exact .inl ⟨rfl, listed⟩
    · exact .inr ⟨(pending_later _).lt_times listed, listed⟩
  · rintro (⟨rfl, listed⟩ | ⟨-, listed⟩)
    · exact .inl ⟨_, listed, rfl⟩
    · exact .inr listed

end Ucore.DeltaList
