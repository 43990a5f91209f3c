import Mathlib

/-! Calls that may stop the system, fail with an error code or return a value.
The state reached is kept on an error too. One rule for each construct takes a
call that returned apart. -/
namespace Ucore

/-- `none` stops the system: a failed assertion, a panic or a wild access. -/
def Call (σ α : Type) := σ → Option (Except Int α × σ)

namespace Call
variable {σ τ α β : Type}

instance : Monad (Call σ) where
  pure value := fun state => some (.ok value, state)
  bind call next := fun state =>
    match call state with
    | none => none
    | some (.error ret, after) => some (.error ret, after)
    | some (.ok value, after) => next value after

def fail (ret : Int) : Call σ α := fun state => some (.error ret, state)
def stop : Call σ α := fun _ => none
def assert (condition : Bool) : Call σ Unit := if condition then pure () else stop
def gets (read : σ → α) : Call σ α := fun state => some (.ok (read state), state)
def modify (update : σ → σ) : Call σ Unit := fun state => some (.ok (), update state)

def onlyIf (condition : Bool) (call : Call σ Unit) : Call σ Unit :=
  if condition then call else pure ()

/-- The outcome of a call as a value, to clean up behind an error. -/
def attempt (call : Call σ α) : Call σ (Except Int α) := fun state =>
  (call state).map fun (outcome, after) => (.ok outcome, after)

/-- A call on a part of the state. -/
def within (part : σ → τ) (put : τ → σ → σ) (call : Call τ α) : Call σ α := fun state =>
  (call (part state)).map fun (outcome, after) => (outcome, put after state)

/-- The call returns a value. -/
def Returns (call : Call σ α) (state : σ) (value : α) (after : σ) : Prop :=
  call state = some (.ok value, after)

/-- The call ends with an error code. -/
def Fails (call : Call σ α) (state : σ) (ret : Int) (after : σ) : Prop :=
  call state = some (.error ret, after)

/-- A property that holds again whenever the call has ended. -/
def Keeps (holds : σ → Prop) (call : Call σ α) : Prop :=
  ∀ state, holds state → ∀ outcome after, call state = some (outcome, after) → holds after

variable {state after : σ} {value : α} {call : Call σ α} {ret : Int}

theorem returns_bind {next : α → Call σ β} {result : β} :
    Returns (call >>= next) state result after ↔
      ∃ value between, Returns call state value between ∧ Returns (next value) between result after := by
  constructor
  · intro ran
    cases first : call state with
    | none => simp [Returns, bind, first] at ran
    | some reached =>
      obtain ⟨outcome, between⟩ := reached
      cases outcome with
      | error ret => simp [Returns, bind, first] at ran
      | ok value =>
        simp only [Returns, bind, first] at ran
        exact ⟨value, between, first, ran⟩
  · rintro ⟨value, between, first, rest⟩
    simp only [Returns] at first rest ⊢
    simp only [bind, first, rest]

theorem returns_pure : Returns (pure value) state value' after ↔ value = value' ∧ state = after := by
  simp [Returns, pure]

theorem not_returns_fail (ret : Int) : ¬ Returns (fail ret : Call σ α) state value after := by
  simp [Returns, fail]

theorem not_returns_stop : ¬ Returns (stop : Call σ α) state value after := by
  simp [Returns, stop]

theorem returns_assert {condition : Bool} {result : Unit} :
    Returns (assert condition) state result after ↔ condition = true ∧ state = after := by
  cases condition <;> simp [assert, Returns, stop, pure]

theorem returns_gets {read : σ → α} :
    Returns (gets read) state value after ↔ read state = value ∧ state = after := by
  simp [Returns, gets]

theorem returns_modify {update : σ → σ} {result : Unit} :
    Returns (modify update) state result after ↔ update state = after := by
  simp [Returns, modify]

theorem returns_onlyIf {condition : Bool} {call : Call σ Unit} {result : Unit} :
    Returns (onlyIf condition call) state result after ↔
      (condition = true ∧ Returns call state result after) ∨ (condition = false ∧ state = after) := by
  cases condition <;> simp [onlyIf, returns_pure]

/-- A successful attempt is a return of the call. -/
theorem returns_attempt_ok : Returns (attempt call) state (.ok value) after ↔
    Returns call state value after := by
  cases first : call state with
  | none => simp [Returns, attempt, first]
  | some reached =>
    obtain ⟨outcome, between⟩ := reached
    simp [Returns, attempt, first]

theorem returns_within {part : σ → τ} {put : τ → σ → σ} {inner : Call τ α} :
    Returns (within part put inner) state value after ↔
      ∃ reached, Returns inner (part state) value reached ∧ put reached state = after := by
  cases first : inner (part state) with
  | none => simp [Returns, within, first]
  | some reached =>
    obtain ⟨outcome, between⟩ := reached
    simp only [Returns, within, first, Option.map_some, Option.some.injEq, Prod.mk.injEq]
    constructor
    · rintro ⟨rfl, rfl⟩
      exact ⟨between, ⟨rfl, rfl⟩, rfl⟩
    · rintro ⟨_, ⟨rfl, rfl⟩, rfl⟩
      exact ⟨rfl, rfl⟩

/-! ## Failures -/

theorem fails_bind {next : α → Call σ β} :
    Fails (call >>= next) state ret after ↔ Fails call state ret after ∨
      ∃ value between, Returns call state value between ∧ Fails (next value) between ret after := by
  cases first : call state with
  | none => simp [Fails, Returns, bind, first]
  | some reached =>
    obtain ⟨outcome, between⟩ := reached
    cases outcome with
    | error ret => simp [Fails, Returns, bind, first]
    | ok value =>
      constructor
      · intro failed
        refine .inr ⟨value, between, first, ?_⟩
        simpa only [Fails, bind, first] using failed
      · rintro (failed | ⟨_, _, ran, failed⟩)
        · rw [Fails, first] at failed
          cases failed
        · rw [Returns, first] at ran
          cases ran
          simpa only [Fails, bind, first] using failed

theorem not_fails_pure : ¬ Fails (pure value : Call σ α) state ret after := by
  simp [Fails, pure]

theorem fails_fail {code : Int} : Fails (fail code : Call σ α) state ret after ↔
    code = ret ∧ state = after := by
  simp [Fails, fail]

theorem not_fails_stop : ¬ Fails (stop : Call σ α) state ret after := by
  simp [Fails, stop]

theorem not_fails_assert {condition : Bool} : ¬ Fails (assert condition) state ret after := by
  cases condition
  · exact not_fails_stop
  · exact not_fails_pure

theorem not_fails_gets {read : σ → α} : ¬ Fails (gets read) state ret after := by
  simp [Fails, gets]

theorem not_fails_modify {update : σ → σ} : ¬ Fails (modify update) state ret after := by
  simp [Fails, modify]

theorem fails_onlyIf {condition : Bool} {call : Call σ Unit} :
    Fails (onlyIf condition call) state ret after ↔ condition = true ∧ Fails call state ret after := by
  cases condition <;> simp [onlyIf, not_fails_pure]

theorem not_fails_attempt : ¬ Fails (attempt call) state ret after := by
  cases first : call state <;> simp [Fails, attempt, first]

/-- A failed attempt is a failure of the call. -/
theorem returns_attempt_error : Returns (attempt call) state (.error ret) after ↔
    Fails call state ret after := by
  cases first : call state with
  | none => simp [Returns, Fails, attempt, first]
  | some reached =>
    obtain ⟨outcome, between⟩ := reached
    simp [Returns, Fails, attempt, first]

theorem fails_within {part : σ → τ} {put : τ → σ → σ} {inner : Call τ α} :
    Fails (within part put inner) state ret after ↔
      ∃ reached, Fails inner (part state) ret reached ∧ put reached state = after := by
  cases first : inner (part state) with
  | none => simp [Fails, within, first]
  | some reached =>
    obtain ⟨outcome, between⟩ := reached
    simp only [Fails, within, first, Option.map_some, Option.some.injEq, Prod.mk.injEq]
    constructor
    · rintro ⟨rfl, rfl⟩
      exact ⟨between, ⟨rfl, rfl⟩, rfl⟩
    · rintro ⟨_, ⟨rfl, rfl⟩, rfl⟩
      exact ⟨rfl, rfl⟩

/-! ## Stops -/

theorem stops_bind {next : α → Call σ β} : (call >>= next) state = none ↔
    call state = none ∨ ∃ value between, Returns call state value between ∧ next value between = none := by
  cases first : call state with
  | none => simp [bind, first]
  | some reached =>
    obtain ⟨outcome, between⟩ := reached
    cases outcome with
    | error ret => simp [Returns, bind, first]
    | ok value =>
      simp only [Returns, bind, first]
      constructor
      · intro stopped
        exact .inr ⟨value, between, rfl, stopped⟩
      · rintro (never | ⟨_, _, same, stopped⟩)
        · cases never
        · cases same
          exact stopped

/-! ## Properties kept -/

variable {holds : σ → Prop}

theorem keeps_iff : Keeps holds call ↔
    (∀ state, holds state → ∀ value after, Returns call state value after → holds after) ∧
      ∀ state, holds state → ∀ ret after, Fails call state ret after → holds after := by
  constructor
  · intro keeps
    exact ⟨fun state held value after ran => keeps state held _ after ran,
      fun state held ret after failed => keeps state held _ after failed⟩
  · rintro ⟨returns, fails⟩ state held (ret | value) after ran
    · exact fails state held ret after ran
    · exact returns state held value after ran

theorem keeps_bind {next : α → Call σ β} (first : Keeps holds call)
    (rest : ∀ value, Keeps holds (next value)) : Keeps holds (call >>= next) := by
  rw [keeps_iff] at first ⊢
  constructor
  · intro state held result after ran
    obtain ⟨value, between, ran, rest_ran⟩ := returns_bind.mp ran
    exact (keeps_iff.mp (rest value)).1 between (first.1 state held value between ran) _ _ rest_ran
  · intro state held ret after failed
    rcases fails_bind.mp failed with failed | ⟨value, between, ran, failed⟩
    · exact first.2 state held ret after failed
    · exact (keeps_iff.mp (rest value)).2 between (first.1 state held value between ran) _ _ failed

theorem keeps_pure : Keeps holds (pure value : Call σ α) := by
  rw [keeps_iff]
  refine ⟨fun state held _ after ran => ?_, fun _ _ _ _ failed => absurd failed not_fails_pure⟩
  obtain ⟨_, rfl⟩ := returns_pure.mp ran
  exact held

theorem keeps_fail (code : Int) : Keeps holds (fail code : Call σ α) := by
  rw [keeps_iff]
  refine ⟨fun _ _ _ _ ran => absurd ran (not_returns_fail _), fun state held _ after failed => ?_⟩
  obtain ⟨_, rfl⟩ := fails_fail.mp failed
  exact held

theorem keeps_stop : Keeps holds (stop : Call σ α) := by
  rw [keeps_iff]
  exact ⟨fun _ _ _ _ ran => absurd ran not_returns_stop,
    fun _ _ _ _ failed => absurd failed not_fails_stop⟩

theorem keeps_assert (condition : Bool) : Keeps holds (assert condition) := by
  cases condition
  · exact keeps_stop
  · exact keeps_pure

theorem keeps_gets (read : σ → α) : Keeps holds (gets read) := by
  rw [keeps_iff]
  refine ⟨fun state held _ after ran => ?_, fun _ _ _ _ failed => absurd failed not_fails_gets⟩
  obtain ⟨_, rfl⟩ := returns_gets.mp ran
  exact held

theorem keeps_modify {update : σ → σ} (keeps : ∀ state, holds state → holds (update state)) :
    Keeps holds (modify update) := by
  rw [keeps_iff]
  refine ⟨fun state held _ after ran => ?_, fun _ _ _ _ failed => absurd failed not_fails_modify⟩
  obtain rfl := returns_modify.mp ran
  exact keeps state held

theorem keeps_onlyIf (condition : Bool) {call : Call σ Unit} (keeps : Keeps holds call) :
    Keeps holds (onlyIf condition call) := by
  cases condition
  · exact keeps_pure
  · exact keeps

theorem keeps_attempt (keeps : Keeps holds call) : Keeps holds (attempt call) := by
  rw [keeps_iff] at keeps ⊢
  refine ⟨fun state held outcome after ran => ?_, fun _ _ _ _ failed => absurd failed not_fails_attempt⟩
  cases outcome with
  | error ret => exact keeps.2 state held ret after (returns_attempt_error.mp ran)
  | ok value => exact keeps.1 state held value after (returns_attempt_ok.mp ran)

theorem keeps_within {part : σ → τ} {put : τ → σ → σ} {inner : Call τ α} {inside : τ → Prop}
    (keeps : Keeps inside inner) (enter : ∀ state, holds state → inside (part state))
    (leave : ∀ state reached, holds state → inside reached → holds (put reached state)) :
    Keeps holds (within part put inner) := by
  rw [keeps_iff] at keeps ⊢
  constructor
  · intro state held value after ran
    obtain ⟨reached, inner, rfl⟩ := returns_within.mp ran
    exact leave state reached held (keeps.1 _ (enter state held) _ _ inner)
  · intro state held ret after failed
    obtain ⟨reached, inner, rfl⟩ := fails_within.mp failed
    exact leave state reached held (keeps.2 _ (enter state held) _ _ inner)

/-- A return that is found by running the call. -/
theorem exists_returns (read : σ → β) {seen : β}
    (ran : (call state).map (fun (outcome, after) => (outcome, read after)) = some (.ok value, seen)) :
    ∃ after, Returns call state value after ∧ read after = seen := by
  obtain ⟨⟨outcome, after⟩, reached, same⟩ := Option.map_eq_some_iff.mp ran
  obtain ⟨rfl, rfl⟩ := Prod.mk.inj same
  exact ⟨after, reached, rfl⟩

end Call
end Ucore
