import Mathlib

/-! Runs of a deterministic system whose environment chooses the next event.
`step` is `none` where the system stops for good (a failed assertion, a wild
access). One step lemma gives a whole run. -/
namespace Ucore.Runs

variable {σ ε : Type*} (step : σ → ε → Option σ)

/-- Every event of the run meets a condition in the state it happens in. -/
def Along (Meets : σ → ε → Prop) : σ → List ε → Prop
  | _, [] => True
  | state, event :: events => Meets state event ∧
    ∀ after, step state event = some after → Along Meets after events

/-- No event of the run stops the system, and every transition is good. -/
def Safe (Good : σ → ε → σ → Prop) : σ → List ε → Prop
  | _, [] => True
  | state, event :: events =>
    ∃ after, step state event = some after ∧ Good state event after ∧ Safe Good after events

/-- The state a run ends in. -/
def run : σ → List ε → Option σ
  | state, [] => some state
  | state, event :: events => (step state event).bind fun after => run after events

variable {step} {Meets : σ → ε → Prop} {Good : σ → ε → σ → Prop} {Inv : σ → Prop}

instance Along.decidable [∀ state event, Decidable (Meets state event)] :
    (state : σ) → (events : List ε) → Decidable (Along step Meets state events)
  | _, [] => .isTrue trivial
  | state, event :: events =>
    have later : Decidable (∀ after, step state event = some after → Along step Meets after events) :=
      match step state event with
      | none => .isTrue nofun
      | some after =>
        have := Along.decidable after events
        decidable_of_iff (Along step Meets after events) (by simp)
    inferInstanceAs (Decidable (_ ∧ _))

/-- An invariant that every permitted step keeps makes every permitted run safe. -/
theorem safe_of_invariant
    (keeps : ∀ state event, Inv state → Meets state event →
      ∃ after, step state event = some after ∧ Good state event after ∧ Inv after)
    (ready : Inv state) (along : Along step Meets state events) :
    Safe step Good state events := by
  induction events generalizing state with
  | nil => trivial
  | cons event events ih =>
    obtain ⟨after, ran, good, ready'⟩ := keeps state event ready along.1
    exact ⟨after, ran, good, ih ready' (along.2 after ran)⟩

/-- What an invariant gives for each permitted event holds along every permitted run. -/
theorem along_of_invariant {Holds : σ → ε → Prop}
    (keeps : ∀ state event, Inv state → Meets state event →
      Holds state event ∧ ∀ after, step state event = some after → Inv after)
    (ready : Inv state) (along : Along step Meets state events) : Along step Holds state events := by
  induction events generalizing state with
  | nil => trivial
  | cons event events ih =>
    obtain ⟨holds, next⟩ := keeps state event ready along.1
    exact ⟨holds, fun after ran => ih (next after ran) (along.2 after ran)⟩

/-- Where a condition says exactly when a lawful event is good, the good runs are those that meet it. -/
theorem safe_iff_along_where {Lawful : σ → ε → Prop}
    (exact_step : ∀ state event, Inv state → Lawful state event →
      ((∃ after, step state event = some after ∧ Good state event after) ↔ Meets state event))
    (keeps : ∀ state event after, Inv state → Lawful state event → Meets state event → step state event = some after → Inv after)
    (ready : Inv state) (lawful : Along step Lawful state events) :
    Safe step Good state events ↔ Along step Meets state events := by
  induction events generalizing state with
  | nil => exact Iff.rfl
  | cons event events ih =>
    constructor
    · rintro ⟨after, ran, good, safe⟩
      have meets := (exact_step state event ready lawful.1).mp ⟨after, ran, good⟩
      refine ⟨meets, fun after' ran' => ?_⟩
      cases ran.symm.trans ran'
      exact (ih (keeps state event after ready lawful.1 meets ran) (lawful.2 after ran)).mp safe
    · rintro ⟨meets, rest⟩
      obtain ⟨after, ran, good⟩ := (exact_step state event ready lawful.1).mpr meets
      exact ⟨after, ran, good, (ih (keeps state event after ready lawful.1 meets ran) (lawful.2 after ran)).mpr (rest after ran)⟩

theorem Along.imp {Weaker : σ → ε → Prop} (along : Along step Meets state events)
    (weaker : ∀ state event, Meets state event → Weaker state event) :
    Along step Weaker state events := by
  induction events generalizing state with
  | nil => trivial
  | cons event events ih => exact ⟨weaker _ _ along.1, fun after ran => ih (along.2 after ran)⟩

theorem along_of_forall (meets : ∀ event ∈ events, ∀ state, Meets state event) (state : σ) :
    Along step Meets state events := by
  induction events generalizing state with
  | nil => trivial
  | cons event events ih =>
    exact ⟨meets event List.mem_cons_self state,
      fun after _ => ih (fun later inRest => meets later (List.mem_cons_of_mem _ inRest)) after⟩

theorem safe_iff_along
    (exact_step : ∀ state event, Inv state → ((∃ after, step state event = some after ∧ Good state event after) ↔ Meets state event))
    (keeps : ∀ state event after, Inv state → Meets state event → step state event = some after → Inv after)
    (ready : Inv state) : Safe step Good state events ↔ Along step Meets state events :=
  safe_iff_along_where (fun state event ready (_ : True) => exact_step state event ready)
    (fun state event after ready _ => keeps state event after ready) ready
    (along_of_forall (fun _ _ _ => trivial) state)

/-- Two conditions that agree in every state of a run hold along the same runs. -/
theorem along_iff_along {Holds : σ → ε → Prop} (agree : ∀ state event, Inv state → (Holds state event ↔ Meets state event))
    (keeps : ∀ state event after, Inv state → step state event = some after → Inv after) (ready : Inv state) :
    Along step Holds state events ↔ Along step Meets state events := by
  induction events generalizing state with
  | nil => exact Iff.rfl
  | cons event events ih =>
    refine and_congr (agree state event ready) (forall_congr' fun after => ?_)
    exact forall_congr' fun ran => ih (keeps state event after ready ran)

/-- Where no event stops the system, a condition on the events alone holds of each of them. -/
theorem Along.of_total {Each : ε → Prop} (along : Along step (fun _ event => Each event) state events)
    (total : ∀ state event, ∃ after, step state event = some after) : ∀ event ∈ events, Each event := by
  induction events generalizing state with
  | nil => nofun
  | cons event events ih =>
    obtain ⟨after, ran⟩ := total state event
    rintro other (here | ⟨_, later⟩)
    · exact along.1
    · exact ih (along.2 after ran) other later

theorem Along.and {Also : σ → ε → Prop} (along : Along step Meets state events)
    (also : Along step Also state events) :
    Along step (fun state event => Meets state event ∧ Also state event) state events := by
  induction events generalizing state with
  | nil => trivial
  | cons event events ih =>
    exact ⟨⟨along.1, also.1⟩, fun after ran => ih (along.2 after ran) (also.2 after ran)⟩

/-- What holds along a run holds of an event in the state that the events before it end in. -/
theorem Along.reaches {final : σ} {event : ε} {events rest : List ε}
    (along : Along step Meets state (events ++ event :: rest)) (ran : run step state events = some final) :
    Meets final event := by
  induction events generalizing state with
  | nil =>
    cases ran
    exact along.1
  | cons first events ih =>
    obtain ⟨after, stepped, rest⟩ := Option.bind_eq_some_iff.mp ran
    exact ih (along.2 after stepped) rest

/-- A safe run is safe from every state on its way. -/
theorem Safe.append {between : σ} {first rest : List ε} (safe : Safe step Good state (first ++ rest))
    (ran : run step state first = some between) : Safe step Good between rest := by
  induction first generalizing state with
  | nil =>
    cases ran
    exact safe
  | cons event first ih =>
    obtain ⟨after, stepped, -, safe⟩ := safe
    rw [run, stepped, Option.bind_some] at ran
    exact ih safe ran

/-- An invariant that no permitted step breaks holds wherever a permitted run gets. -/
theorem run_keeps
    (keeps : ∀ state event after, Inv state → Meets state event → step state event = some after →
      Inv after)
    (ready : Inv state) (along : Along step Meets state events)
    (ran : run step state events = some final) : Inv final := by
  induction events generalizing state with
  | nil =>
    cases ran
    exact ready
  | cons event events ih =>
    obtain ⟨after, stepped, rest⟩ := Option.bind_eq_some_iff.mp ran
    exact ih (keeps state event after ready along.1 stepped) (along.2 after stepped) rest

end Ucore.Runs
