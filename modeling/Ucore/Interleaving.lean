import Mathlib

/-! Processes that make calls on a memory they share, step by step in any order. Each has some
memory of its own besides. A process waits at a semaphore until it is its turn to take it off.

A call that does all its work between `down` and `up` of one semaphore has its effect at once:
whatever the order of the steps, the calls have returned what they return one after another
(`Exclusive.serial`). -/
namespace Ucore.Interleaving
variable {ι κ σ τ α β γ δ : Type}

/-- What is left of a call. Between two of its steps other processes may come. -/
inductive Thread (κ σ α : Type) where
  | ret (value : α)
  /-- The system stops. -/
  | stop
  | act (update : σ → σ) (next : σ → Thread κ σ α)
  | down (sem : κ) (next : Thread κ σ α)
  | up (sem : κ) (next : Thread κ σ α)

namespace Thread

def bind : Thread κ σ α → (α → Thread κ σ β) → Thread κ σ β
  | ret value, rest => rest value
  | stop, _ => stop
  | act update next, rest => act update fun state => (next state).bind rest
  | down sem next, rest => down sem (next.bind rest)
  | up sem next, rest => up sem (next.bind rest)

instance : Monad (Thread κ σ) where
  pure := ret
  bind := bind

def assert (condition : Bool) : Thread κ σ Unit := if condition then ret () else stop

/-- An update of the memory that is possible under a condition only. -/
def change (possible : σ → Bool) (update : σ → σ) : Thread κ σ Unit :=
  act (fun state => if possible state then update state else state) fun state =>
    if possible state then ret () else stop

/-- The thread neither takes the semaphore nor gives it back. -/
inductive Avoids (sem : κ) : Thread κ σ α → Prop where
  | ret (value : α) : Avoids sem (ret value)
  | stop : Avoids sem stop
  | act {update : σ → σ} {next : σ → Thread κ σ α} (avoids : ∀ state, Avoids sem (next state)) : Avoids sem (act update next)
  | down {other : κ} {next : Thread κ σ α} (differs : other ≠ sem) (avoids : Avoids sem next) : Avoids sem (down other next)
  | up {other : κ} {next : Thread κ σ α} (differs : other ≠ sem) (avoids : Avoids sem next) : Avoids sem (up other next)

theorem Avoids.bind {sem : κ} {thread : Thread κ σ α} {rest : α → Thread κ σ β} (avoids : Avoids sem thread)
    (rests : ∀ value, Avoids sem (rest value)) : Avoids sem (thread >>= rest) := by
  induction avoids with
  | ret value => exact rests value
  | stop => exact .stop
  | act _ ih => exact .act ih
  | down differs _ ih => exact .down differs ih
  | up differs _ ih => exact .up differs ih

theorem Avoids.assert {sem : κ} (condition : Bool) : Avoids sem (assert condition : Thread κ σ Unit) := by
  cases condition
  · exact .stop
  · exact .ret ()

theorem Avoids.change {sem : κ} (possible : σ → Bool) (update : σ → σ) : Avoids sem (change possible update) := by
  apply Avoids.act
  intro state
  split
  · exact .ret ()
  · exact .stop

theorem Avoids.ite {sem : κ} {condition : Prop} [Decidable condition] {first second : Thread κ σ α} (avoids : Avoids sem first)
    (avoids' : Avoids sem second) : Avoids sem (if condition then first else second) := by
  split
  · exact avoids
  · exact avoids'

variable [DecidableEq κ]

/-- One step of the thread; `none` where it has ended, stopped or waits. -/
def next : Thread κ σ α → σ → (κ → Nat) → Option (Thread κ σ α × σ × (κ → Nat))
  | ret _, _, _ => none
  | stop, _, _ => none
  | act update next, state, sems => some (next state, update state, sems)
  | down sem next, state, sems =>
    if 0 < sems sem then some (next, state, Function.update sems sem (sems sem - 1)) else none
  | up sem next, state, sems => some (next, state, Function.update sems sem (sems sem + 1))

/-- The thread with nobody else around; `none` where it stops or waits. -/
def alone : Thread κ σ α → σ → (κ → Nat) → Option (α × σ × (κ → Nat))
  | ret value, state, sems => some (value, state, sems)
  | stop, _, _ => none
  | act update next, state, sems => (next state).alone (update state) sems
  | down sem next, state, sems =>
    if 0 < sems sem then next.alone state (Function.update sems sem (sems sem - 1)) else none
  | up sem next, state, sems => next.alone state (Function.update sems sem (sems sem + 1))

variable {thread after : Thread κ σ α} {state state' : σ} {sems sems' : κ → Nat}

theorem alone_bind (thread : Thread κ σ α) (rest : α → Thread κ σ β) (state : σ) (sems : κ → Nat) :
    (thread >>= rest).alone state sems =
      (thread.alone state sems).bind fun (value, state, sems) => (rest value).alone state sems := by
  induction thread generalizing state sems with
  | ret value => rfl
  | stop => rfl
  | act update next ih => exact ih state (update state) sems
  | down sem next ih =>
    have both : ∀ state sems, (next.bind rest).alone state sems = _ := ih
    simp only [Bind.bind, Thread.bind, alone, both]
    split <;> rfl
  | up sem next ih => exact ih state _

theorem alone_next (steps : thread.next state sems = some (after, state', sems')) :
    thread.alone state sems = after.alone state' sems' := by
  cases thread with
  | ret value => cases steps
  | stop => cases steps
  | act update next =>
    cases steps
    rfl
  | down sem next =>
    simp only [Thread.next] at steps
    split at steps
    · cases steps
      simp only [alone, ‹0 < sems sem›, ↓reduceIte]
    · cases steps
  | up sem next =>
    cases steps
    rfl

/-- A thread that has not ended and cannot go on has nowhere to get to alone. -/
theorem alone_of_next_none (unfinished : ∀ value, thread ≠ ret value) (stuck : thread.next state sems = none) :
    thread.alone state sems = none := by
  cases thread with
  | ret value => exact absurd rfl (unfinished value)
  | stop => rfl
  | act update next => cases stuck
  | down sem next =>
    simp only [Thread.next] at stuck
    split at stuck
    · cases stuck
    · simp only [alone, ‹¬0 < sems sem›, ↓reduceIte]
  | up sem next => cases stuck

/-- A step of a part of the thread that avoids a semaphore. -/
theorem Avoids.next {sem : κ} {thread after : Thread κ σ α} (avoids : Avoids sem thread)
    (steps : thread.next state sems = some (after, state', sems')) : Avoids sem after ∧ sems' sem = sems sem := by
  cases avoids with
  | ret value => cases steps
  | stop => cases steps
  | act avoids =>
    cases steps
    exact ⟨avoids _, rfl⟩
  | @down other _ differs avoids =>
    simp only [Thread.next] at steps
    split at steps
    · cases steps
      exact ⟨avoids, Function.update_of_ne differs.symm _ _⟩
    · cases steps
  | up differs avoids =>
    cases steps
    exact ⟨avoids, Function.update_of_ne differs.symm _ _⟩

/-- Where a thread takes a step, so does it in front of others; or it has ended. -/
theorem next_bind (thread : Thread κ σ α) (rest : α → Thread κ σ β) (state : σ) (sems : κ → Nat) :
    (∃ value, thread = ret value) ∨ (thread >>= rest).next state sems =
      (thread.next state sems).map fun (after, state, sems) => (after >>= rest, state, sems) := by
  cases thread with
  | ret value => exact .inl ⟨value, rfl⟩
  | stop => exact .inr rfl
  | act update next => exact .inr rfl
  | down sem next =>
    right
    simp only [Bind.bind, Thread.bind, Thread.next]
    split <;> rfl
  | up sem next => exact .inr rfl

omit [DecidableEq κ] in
theorem bind_assoc (thread : Thread κ σ α) (first : α → Thread κ σ β) (second : β → Thread κ σ γ) :
    thread >>= first >>= second = thread >>= fun value => first value >>= second := by
  induction thread with
  | ret value => rfl
  | stop => rfl
  | act update next ih => exact congrArg (act update) (funext ih)
  | down sem next ih => exact congrArg (down sem) ih
  | up sem next ih => exact congrArg (up sem) ih

/-- Alone the thread returns a value, with all the semaphores as they were. -/
def Runs (thread : Thread κ σ α) (sems : κ → Nat) (state : σ) (value : α) (after : σ) : Prop :=
  thread.alone state sems = some (value, after, sems)

theorem Runs.pure (value : α) : Runs (Pure.pure value) sems state value state := rfl

theorem Runs.bind {thread : Thread κ σ α} {rest : α → Thread κ σ β} {value : α} {result : β} {between after : σ}
    (first : Runs thread sems state value between) (second : Runs (rest value) sems between result after) :
    Runs (thread >>= rest) sems state result after := by
  rw [Runs, alone_bind, first]
  exact second

theorem Runs.assert {condition : Bool} (holds : condition) : Runs (assert condition) sems state () state := by
  rw [Thread.assert, holds]
  rfl

theorem Runs.change {possible : σ → Bool} {update : σ → σ} (holds : possible state) :
    Runs (change possible update) sems state () (update state) := by
  rw [Runs, Thread.change, alone]
  simp only [holds, ↓reduceIte]
  rfl

end Thread

/-! ## Processes -/

/-- A process in a call, with the memory of its own. -/
structure Process (κ σ τ α γ : Type) where
  call : γ
  own : τ
  rest : Thread κ (σ × τ) α

structure State (ι κ σ τ α γ : Type) where
  shared : σ
  sems : κ → Nat
  procs : ι → Option (Process κ σ τ α γ)

/-- A call that has returned, with what it has left in the memory of its own. -/
structure Event (τ α γ : Type) where
  call : γ
  own : τ
  value : α

/-- How calls begin. -/
structure System (κ σ τ α γ : Type) where
  own : γ → τ
  program : γ → Thread κ (σ × τ) α

variable [DecidableEq ι] [DecidableEq κ]

/-- Process `i` goes on with its call, or returns from it if nothing is left to be done. -/
def State.goOn (s : State ι κ σ τ α γ) (i : ι) (call : γ) (own : τ) : Thread κ (σ × τ) α → State ι κ σ τ α γ × List (Event τ α γ)
  | .ret value => ({ s with procs := Function.update s.procs i none }, [⟨call, own, value⟩])
  | rest => ({ s with procs := Function.update s.procs i (some ⟨call, own, rest⟩) }, [])

/-- A step of the system, with the call that returns. Calls that are not allowed do not begin. -/
inductive Step (system : System κ σ τ α γ) (Allowed : γ → Prop) :
    State ι κ σ τ α γ → List (Event τ α γ) → State ι κ σ τ α γ → Prop where
  | begin {s s' : State ι κ σ τ α γ} {i : ι} {call : γ} {events : List (Event τ α γ)} (idle : s.procs i = none) (allowed : Allowed call)
      (goes_on : s.goOn i call (system.own call) (system.program call) = (s', events)) : Step system Allowed s events s'
  | run {s s' : State ι κ σ τ α γ} {i : ι} {process : Process κ σ τ α γ} {after : Thread κ (σ × τ) α} {shared : σ} {own : τ}
      {sems : κ → Nat} {events : List (Event τ α γ)} (busy : s.procs i = some process)
      (steps : process.rest.next (s.shared, process.own) s.sems = some (after, (shared, own), sems))
      (goes_on : State.goOn { s with shared := shared, sems := sems } i process.call own after = (s', events)) :
      Step system Allowed s events s'

/-- Any number of steps, with the calls that return in their order. -/
inductive Run (system : System κ σ τ α γ) (Allowed : γ → Prop) :
    State ι κ σ τ α γ → List (Event τ α γ) → State ι κ σ τ α γ → Prop where
  | nil (s : State ι κ σ τ α γ) : Run system Allowed s [] s
  | snoc {s between s' : State ι κ σ τ α γ} {events more : List (Event τ α γ)} (run : Run system Allowed s events between)
      (step : Step system Allowed between more s') : Run system Allowed s (events ++ more) s'

/-- No process is in a call. -/
def State.Idle (s : State ι κ σ τ α γ) : Prop := ∀ i, s.procs i = none

/-- No call has stopped, and where there are calls, one of them can take a step. -/
structure State.Live (s : State ι κ σ τ α γ) : Prop where
  unstopped : ∀ i process, s.procs i = some process → process.rest ≠ .stop
  moves : ∀ i process, s.procs i = some process → ∃ j other, s.procs j = some other ∧
    (other.rest.next (s.shared, other.own) s.sems).isSome

/-- Calls one after another, each with its effect. -/
inductive Serial (Effect : δ → Event τ α γ → δ → Prop) : δ → List (Event τ α γ) → δ → Prop where
  | nil (d : δ) : Serial Effect d [] d
  | snoc {d between d' : δ} {events : List (Event τ α γ)} {event : Event τ α γ} (serial : Serial Effect d events between)
      (effect : Effect between event d') : Serial Effect d (events ++ [event]) d'

omit [DecidableEq ι] [DecidableEq κ] in
theorem Serial.of_nil {Effect : δ → Event τ α γ → δ → Prop} {d d' : δ} (serial : Serial Effect d [] d') : d = d' := by
  generalize same : ([] : List (Event τ α γ)) = events at serial
  cases serial with
  | nil => rfl
  | snoc => exact absurd same (List.append_ne_nil_of_right_ne_nil _ (List.cons_ne_nil _ _)).symm

omit [DecidableEq ι] [DecidableEq κ] in
theorem Serial.of_snoc {Effect : δ → Event τ α γ → δ → Prop} {d d' : δ} {events : List (Event τ α γ)} {event : Event τ α γ}
    (serial : Serial Effect d (events ++ [event]) d') : ∃ between, Serial Effect d events between ∧ Effect between event d' := by
  generalize same : events ++ [event] = whole at serial
  cases serial with
  | nil => exact absurd same (List.append_ne_nil_of_right_ne_nil _ (List.cons_ne_nil _ _))
  | snoc before effect =>
    obtain ⟨rfl, last⟩ := List.append_inj' same rfl
    cases last
    exact ⟨_, before, effect⟩

omit [DecidableEq ι] [DecidableEq κ] in
theorem Serial.of_single {Effect : δ → Event τ α γ → δ → Prop} {d d' : δ} {event : Event τ α γ} (serial : Serial Effect d [event] d') :
    Effect d event d' := by
  obtain ⟨between, before, effect⟩ := @Serial.of_snoc _ _ _ _ Effect d d' [] event serial
  rwa [before.of_nil]

theorem Run.trans {system : System κ σ τ α γ} {Allowed : γ → Prop} {first between last : State ι κ σ τ α γ} {events more : List (Event τ α γ)}
    (run : Run system Allowed first events between) (goes_on : Run system Allowed between more last) :
    Run system Allowed first (events ++ more) last := by
  induction goes_on with
  | nil =>
    rw [List.append_nil]
    exact run
  | snoc _ step ih =>
    rw [← List.append_assoc]
    exact .snoc ih step

/-- A process that nobody comes between runs to the end of its call. -/
theorem Run.of_alone {system : System κ σ τ α γ} {Allowed : γ → Prop} {i : ι} {call : γ} (rest : Thread κ (σ × τ) α)
    {s s' : State ι κ σ τ α γ} {own own' : τ} {value : α} {shared' : σ} {sems' : κ → Nat} {events : List (Event τ α γ)}
    (ran : rest.alone (s.shared, own) s.sems = some (value, (shared', own'), sems')) (goes_on : s.goOn i call own rest = (s', events)) :
    ∃ more, events ++ more = [⟨call, own', value⟩] ∧
      Run system Allowed s' more { shared := shared', sems := sems', procs := Function.update s.procs i none } := by
  induction rest generalizing s s' own events with
  | ret value =>
    cases ran
    cases goes_on
    exact ⟨[], rfl, .nil _⟩
  | stop => cases ran
  | act update next ih =>
    cases goes_on
    rcases reached : State.goOn { s with shared := (update (s.shared, own)).1, procs := Function.update s.procs i (some ⟨call, own, .act update next⟩) }
      i call (update (s.shared, own)).2 (next (s.shared, own)) with ⟨s', events⟩
    have ran' : (next (s.shared, own)).alone ((update (s.shared, own)).1, (update (s.shared, own)).2) s.sems = _ := ran
    obtain ⟨more, same, run⟩ := ih (s.shared, own) (s := { s with
      shared := (update (s.shared, own)).1
      procs := Function.update s.procs i (some ⟨call, own, .act update next⟩) }) ran' reached
    rw [Function.update_idem] at run
    exact ⟨events ++ more, same, .trans (.snoc (.nil _) (.run (Function.update_self _ _ _) rfl reached)) run⟩
  | down sem next ih =>
    cases goes_on
    rw [Thread.alone] at ran
    split at ran
    · rename_i positive
      rcases reached : State.goOn { s with
        sems := Function.update s.sems sem (s.sems sem - 1)
        procs := Function.update s.procs i (some ⟨call, own, .down sem next⟩) } i call own next with ⟨s', events⟩
      obtain ⟨more, same, run⟩ := ih ran reached
      rw [Function.update_idem] at run
      exact ⟨events ++ more, same, .trans (.snoc (.nil _) (.run (Function.update_self _ _ _) (if_pos positive) reached)) run⟩
    · cases ran
  | up sem next ih =>
    cases goes_on
    rcases reached : State.goOn { s with
      sems := Function.update s.sems sem (s.sems sem + 1)
      procs := Function.update s.procs i (some ⟨call, own, .up sem next⟩) } i call own next with ⟨s', events⟩
    obtain ⟨more, same, run⟩ := ih (s := { s with
      sems := Function.update s.sems sem (s.sems sem + 1)
      procs := Function.update s.procs i (some ⟨call, own, .up sem next⟩) }) ran reached
    rw [Function.update_idem] at run
    exact ⟨events ++ more, same, .trans (.snoc (.nil _) (.run (Function.update_self _ _ _) rfl reached)) run⟩

/-- A call that one process makes by itself. -/
theorem Run.single {system : System κ σ τ α γ} {Allowed : γ → Prop} {s : State ι κ σ τ α γ} (i : ι) {call : γ} (idle : s.procs i = none)
    (allowed : Allowed call) {own' : τ} {value : α} {shared' : σ} {sems' : κ → Nat}
    (ran : (system.program call).alone (s.shared, system.own call) s.sems = some (value, (shared', own'), sems')) :
    Run system Allowed s [⟨call, own', value⟩] { s with shared := shared', sems := sems' } := by
  rcases reached : s.goOn i call (system.own call) (system.program call) with ⟨s', events⟩
  obtain ⟨more, same, run⟩ : ∃ more, _ ∧ Run system Allowed _ more _ := Run.of_alone _ ran reached
  rw [← idle, Function.update_eq_self] at run
  rw [← same]
  exact .trans (.snoc (.nil _) (.begin idle allowed reached)) run

omit [DecidableEq κ] in
theorem State.goOn_waits {s : State ι κ σ τ α γ} {i : ι} {call : γ} {own : τ} {rest : Thread κ (σ × τ) α} (waits : ∀ value, rest ≠ .ret value) :
    s.goOn i call own rest = ({ s with procs := Function.update s.procs i (some ⟨call, own, rest⟩) }, []) := by
  cases rest with
  | ret value => exact absurd rfl (waits value)
  | _ => rfl

/-- A process has begun its call, and another one makes a call of its own before it goes on. -/
theorem Run.overtakes {system : System κ σ τ α γ} {Allowed : γ → Prop} {s : State ι κ σ τ α γ} {i j : ι} (apart : j ≠ i)
    (idle : s.procs i = none) (other : s.procs j = none) {slow fast : γ} (slow_allowed : Allowed slow) (fast_allowed : Allowed fast)
    (waits : ∀ value, system.program slow ≠ .ret value) {own own' : τ} {value value' : α} {shared shared' : σ} {sems sems' : κ → Nat}
    (fast_ran : (system.program fast).alone (s.shared, system.own fast) s.sems = some (value, (shared, own), sems))
    (slow_ran : (system.program slow).alone (shared, system.own slow) sems = some (value', (shared', own'), sems')) :
    Run system Allowed s [⟨fast, own, value⟩, ⟨slow, own', value'⟩] { s with shared := shared', sems := sems' } := by
  let begun : State ι κ σ τ α γ :=
    { s with procs := Function.update s.procs i (some ⟨slow, system.own slow, system.program slow⟩) }
  have begins : Run system Allowed s [] begun := .snoc (.nil s) (.begin idle slow_allowed (State.goOn_waits waits))
  have still : begun.procs j = none := (Function.update_of_ne apart _ _).trans other
  have first : Run system Allowed begun [⟨fast, own, value⟩] { begun with shared := shared, sems := sems } :=
    Run.single j still fast_allowed fast_ran
  have goes_on : State.goOn { begun with shared := shared, sems := sems } i slow (system.own slow) (system.program slow) =
      ({ begun with shared := shared, sems := sems }, []) := by
    rw [State.goOn_waits waits, Function.update_idem]
  obtain ⟨more, same, second⟩ := @Run.of_alone _ _ _ _ _ _ _ _ system Allowed _ _ _ _ _ _ _ _ _ _ _ slow_ran goes_on
  rw [List.nil_append] at same
  rw [Function.update_idem, ← idle, Function.update_eq_self, same] at second
  exact begins.trans (first.trans second)

/-! ## Calls inside of one semaphore -/

variable {system : System κ σ τ α γ} {Allowed : γ → Prop} {sem : κ} {Quiet : σ → (κ → Nat) → Prop} {view : σ → δ}
  {Effect : δ → Event τ α γ → δ → Prop}

/-- What a call does that works on the memory between `down` and `up` of a semaphore only. -/
def enclosed (sem : κ) (body : Thread κ (σ × τ) α) : Thread κ (σ × τ) α := body >>= fun value => .up sem (.ret value)

/-- Behind the call the semaphore is back. -/
theorem Thread.Runs.enclosed {sems : κ → Nat} {body : Thread κ (σ × τ) α} {state after : σ × τ} {value : α} (positive : 0 < sems sem)
    (runs : Runs body (Function.update sems sem (sems sem - 1)) state value after) :
    Runs (.down sem (enclosed sem body)) sems state value after := by
  have back : Function.update (Function.update sems sem (sems sem - 1)) sem (sems sem - 1 + 1) = sems := by
    rw [Function.update_idem, Nat.sub_add_cancel positive, Function.update_eq_self]
  rw [Runs, Thread.alone, if_pos positive, Interleaving.enclosed, Thread.alone_bind, runs]
  simp only [Option.bind_some, Thread.alone, Function.update_self, back]

/-- Every call works between `down` and `up` of the semaphore, if it works at all; and alone it has its effect. -/
structure Exclusive (system : System κ σ τ α γ) (Allowed : γ → Prop) (sem : κ) (Quiet : σ → (κ → Nat) → Prop) (view : σ → δ)
    (Effect : δ → Event τ α γ → δ → Prop) : Prop where
  free : ∀ shared sems, Quiet shared sems → sems sem = 1
  encloses : ∀ call, Allowed call → (∃ value, system.program call = .ret value) ∨
    ∃ body, system.program call = .down sem (enclosed sem body) ∧ body.Avoids sem
  effective : ∀ call shared sems, Allowed call → Quiet shared sems → ∃ value shared' own' sems',
    (system.program call).alone (shared, system.own call) sems = some (value, (shared', own'), sems') ∧
      Quiet shared' sems' ∧ Effect (view shared) ⟨call, own', value⟩ (view shared')

/-- The process is still in front of the semaphore. -/
def Waits (system : System κ σ τ α γ) (Allowed : γ → Prop) (sem : κ) (process : Process κ σ τ α γ) : Prop :=
  Allowed process.call ∧ process.own = system.own process.call ∧ process.rest = system.program process.call ∧
    ∃ body, system.program process.call = .down sem (enclosed sem body) ∧ body.Avoids sem

/-- The process is behind the semaphore, and comes to where its call would have come alone from the memory
`shared` and the semaphores `sems`. -/
structure Inside (system : System κ σ τ α γ) (Allowed : γ → Prop) (sem : κ) (shared : σ) (sems : κ → Nat) (s : State ι κ σ τ α γ)
    (process : Process κ σ τ α γ) (body : Thread κ (σ × τ) α) : Prop where
  allowed : Allowed process.call
  rest : process.rest = enclosed sem body
  avoids : body.Avoids sem
  taken : s.sems sem = 0
  same : process.rest.alone (s.shared, process.own) s.sems =
    (system.program process.call).alone (shared, system.own process.call) sems

/-- At most one process is behind the semaphore. The last call to return has left `shared` and `sems`. -/
inductive Between (system : System κ σ τ α γ) (Allowed : γ → Prop) (sem : κ) (shared : σ) (sems : κ → Nat) (s : State ι κ σ τ α γ) :
    Prop where
  | free (memory : s.shared = shared) (semaphores : s.sems = sems)
      (waits : ∀ i process, s.procs i = some process → Waits system Allowed sem process)
  | taken (i : ι) (process : Process κ σ τ α γ) (body : Thread κ (σ × τ) α) (busy : s.procs i = some process)
      (inside : Inside system Allowed sem shared sems s process body)
      (waits : ∀ j, j ≠ i → ∀ other, s.procs j = some other → Waits system Allowed sem other)

omit [DecidableEq κ] in
theorem enclosed_ne_ret (sem : κ) (body : Thread κ (σ × τ) α) (value : α) : enclosed sem body ≠ .ret value := by
  intro same
  cases body <;> cases same

omit [DecidableEq κ] in
theorem goOn_of_ne {s : State ι κ σ τ α γ} {i : ι} {call : γ} {own : τ} {rest : Thread κ (σ × τ) α}
    (unfinished : ∀ value, rest ≠ .ret value) :
    s.goOn i call own rest = ({ s with procs := Function.update s.procs i (some ⟨call, own, rest⟩) }, []) := by
  cases rest with
  | ret value => exact absurd rfl (unfinished value)
  | _ => rfl

/-- A process behind an update is the new one, or another one that was there before. -/
theorem found_update {procs : ι → Option α} {i j : ι} {new : Option α} {other : α} (found : Function.update procs i new j = some other) :
    (j = i ∧ new = some other) ∨ (j ≠ i ∧ procs j = some other) := by
  by_cases same : j = i
  · rw [same, Function.update_self] at found
    exact .inl ⟨same, found⟩
  · rw [Function.update_of_ne same] at found
    exact .inr ⟨same, found⟩

variable {s s' : State ι κ σ τ α γ} {shared : σ} {sems : κ → Nat} {events : List (Event τ α γ)}

/-- At most one call returns, and it has its effect. -/
inductive Advances (Effect : δ → Event τ α γ → δ → Prop) (d : δ) : List (Event τ α γ) → δ → Prop where
  | same : Advances Effect d [] d
  | returned {event : Event τ α γ} {d' : δ} (effect : Effect d event d') : Advances Effect d [event] d'

/-- A call begins. -/
theorem Exclusive.begin (exclusive : Exclusive system Allowed sem Quiet view Effect) (between : Between system Allowed sem shared sems s)
    (quiet : Quiet shared sems) {i : ι} {call : γ} (idle : s.procs i = none) (allowed : Allowed call)
    (goes_on : s.goOn i call (system.own call) (system.program call) = (s', events)) :
    Between system Allowed sem shared sems s' ∧ Advances Effect (view shared) events (view shared) := by
  rcases exclusive.encloses call allowed with ⟨value, program⟩ | ⟨body, program, avoids⟩
  · -- A call that has nothing to do returns at once, and the others do not see it.
    obtain ⟨value', shared', own', sems', ran, -, effect⟩ := exclusive.effective call shared sems allowed quiet
    rw [program] at ran goes_on
    cases ran
    have unchanged : Function.update s.procs i none = s.procs := by rw [← idle, Function.update_eq_self]
    rw [State.goOn, unchanged] at goes_on
    cases goes_on
    exact ⟨between, .returned effect⟩
  · have unfinished : ∀ value, system.program call ≠ .ret value := by
      intro value same
      rw [program] at same
      cases same
    rw [goOn_of_ne unfinished] at goes_on
    cases goes_on
    have now : Waits system Allowed sem ⟨call, system.own call, system.program call⟩ := ⟨allowed, rfl, rfl, body, program, avoids⟩
    refine ⟨?_, .same⟩
    cases between with
    | free memory semaphores waits =>
      refine .free memory semaphores ?_
      intro j other found
      rcases found_update found with ⟨-, new⟩ | ⟨-, found⟩
      · cases new
        exact now
      · exact waits j other found
    | taken k process inner busy inside waits =>
      have apart : k ≠ i := by
        rintro rfl
        rw [idle] at busy
        cases busy
      refine .taken k process inner ((Function.update_of_ne apart _ _).trans busy)
        ⟨inside.allowed, inside.rest, inside.avoids, inside.taken, inside.same⟩ ?_
      intro j away other found
      rcases found_update found with ⟨-, new⟩ | ⟨-, found⟩
      · cases new
        exact now
      · exact waits j away other found

/-- A process takes the semaphore. -/
theorem Exclusive.enter (exclusive : Exclusive system Allowed sem Quiet view Effect) (quiet : Quiet shared sems)
    (memory : s.shared = shared) (semaphores : s.sems = sems) (waits : ∀ j process, s.procs j = some process → Waits system Allowed sem process)
    {i : ι} {process : Process κ σ τ α γ} (busy : s.procs i = some process) {after : Thread κ (σ × τ) α} {shared' : σ} {own' : τ}
    {sems' : κ → Nat} (steps : process.rest.next (s.shared, process.own) s.sems = some (after, (shared', own'), sems'))
    (goes_on : State.goOn { s with shared := shared', sems := sems' } i process.call own' after = (s', events)) :
    Between system Allowed sem shared sems s' ∧ events = [] := by
  obtain ⟨allowed, own, rest, body, program, avoids⟩ := waits i process busy
  have same := Thread.alone_next steps
  have one := exclusive.free shared sems quiet
  rw [rest, own, memory, semaphores] at same
  rw [rest, program, Thread.next, own, memory, semaphores, one] at steps
  cases steps
  rw [goOn_of_ne (enclosed_ne_ret sem body)] at goes_on
  cases goes_on
  refine ⟨.taken i _ body (Function.update_self _ _ _) ⟨allowed, rfl, avoids, Function.update_self _ _ _, same.symm⟩ ?_, rfl⟩
  · intro j away other found
    rcases found_update found with ⟨same, -⟩ | ⟨-, found⟩
    · exact absurd same away
    · exact waits j other found

/-- The process behind the semaphore takes a step. -/
theorem Exclusive.work (exclusive : Exclusive system Allowed sem Quiet view Effect) (quiet : Quiet shared sems)
    {i : ι} {process : Process κ σ τ α γ} {body : Thread κ (σ × τ) α} (inside : Inside system Allowed sem shared sems s process body)
    (waits : ∀ j, j ≠ i → ∀ other, s.procs j = some other → Waits system Allowed sem other)
    {after : Thread κ (σ × τ) α} {shared' : σ} {own' : τ} {sems' : κ → Nat}
    (steps : process.rest.next (s.shared, process.own) s.sems = some (after, (shared', own'), sems'))
    (goes_on : State.goOn { s with shared := shared', sems := sems' } i process.call own' after = (s', events)) :
    ∃ shared' sems', Between system Allowed sem shared' sems' s' ∧ Quiet shared' sems' ∧ Advances Effect (view shared) events (view shared') := by
  obtain ⟨allowed, rest, avoids, taken, same⟩ := inside
  have others : ∀ j, j ≠ i → ∀ new other, Function.update s.procs i new j = some other → Waits system Allowed sem other := by
    intro j away new other found
    rcases found_update found with ⟨same, -⟩ | ⟨-, found⟩
    · exact absurd same away
    · exact waits j away other found
  have goes_there := Thread.alone_next steps
  rw [same] at goes_there
  rcases Thread.next_bind body (fun value => .up sem (.ret value)) (s.shared, process.own) s.sems with ⟨value, rfl⟩ | goes
  · -- The last step, which gives the semaphore back.
    obtain ⟨value', shared'', own'', sems'', ran, quiet', effect⟩ := exclusive.effective process.call shared sems allowed quiet
    rw [rest] at steps
    cases steps
    rw [goes_there] at ran
    cases ran
    cases goes_on
    refine ⟨_, _, .free rfl rfl ?_, quiet', .returned effect⟩
    intro j other found
    rcases found_update found with ⟨-, new⟩ | ⟨away, -⟩
    · cases new
    · exact others j away none other found
  · change (enclosed sem body).next _ _ = _ at goes
    rw [rest, goes, Option.map_eq_some_iff] at steps
    obtain ⟨⟨after', ⟨shared'', own''⟩, sems''⟩, first, whole⟩ := steps
    cases whole
    obtain ⟨avoids', kept⟩ := avoids.next first
    have unfinished : ∀ value, (after' >>= fun value => .up sem (.ret value)) ≠ .ret value := enclosed_ne_ret sem after'
    rw [goOn_of_ne unfinished] at goes_on
    cases goes_on
    refine ⟨shared, sems, .taken i _ after' (Function.update_self _ _ _) ⟨allowed, rfl, avoids', kept.trans taken, goes_there.symm⟩ ?_, quiet, .same⟩
    intro j away other found
    exact others j away _ other found

/-- One step. -/
theorem Exclusive.step (exclusive : Exclusive system Allowed sem Quiet view Effect) (between : Between system Allowed sem shared sems s)
    (quiet : Quiet shared sems) (step : Step system Allowed s events s') :
    ∃ shared' sems', Between system Allowed sem shared' sems' s' ∧ Quiet shared' sems' ∧ Advances Effect (view shared) events (view shared') := by
  cases step with
  | begin idle allowed goes_on =>
    obtain ⟨between', advances⟩ := exclusive.begin between quiet idle allowed goes_on
    exact ⟨shared, sems, between', quiet, advances⟩
  | @run _ i process after shared' own' sems' _ busy steps goes_on =>
    cases between with
    | free memory semaphores waits =>
      obtain ⟨between', rfl⟩ := exclusive.enter quiet memory semaphores waits busy steps goes_on
      exact ⟨shared, sems, between', quiet, .same⟩
    | taken k holder body held inside waits =>
      by_cases same : i = k
      · subst same
        rw [held] at busy
        cases busy
        exact exclusive.work quiet inside waits steps goes_on
      · -- The semaphore is gone, so the others stay in front of it.
        obtain ⟨-, -, rest, inner, program, -⟩ := waits i same process busy
        rw [rest, program, Thread.next, inside.taken] at steps
        cases steps

/-- In every run the calls have their effects one after another; and where no call is going on,
the memory is as the last one has left it. -/
theorem Exclusive.serial (exclusive : Exclusive system Allowed sem Quiet view Effect) {start : State ι κ σ τ α γ} (idle : start.Idle)
    (quiet : Quiet start.shared start.sems) (run : Run system Allowed start events s) :
    ∃ shared sems, Between system Allowed sem shared sems s ∧ Quiet shared sems ∧ Serial Effect (view start.shared) events (view shared) := by
  induction run with
  | nil =>
    refine ⟨start.shared, start.sems, .free rfl rfl ?_, quiet, .nil _⟩
    intro i process busy
    rw [idle i] at busy
    cases busy
  | snoc run step ih =>
    obtain ⟨shared, sems, between, quiet', serial⟩ := ih
    obtain ⟨shared', sems', between', quiet'', advances⟩ := exclusive.step between quiet' step
    refine ⟨shared', sems', between', quiet'', ?_⟩
    generalize view shared' = d' at advances
    cases advances with
    | same =>
      rw [List.append_nil]
      exact serial
    | returned effect => exact .snoc serial effect

omit [DecidableEq ι] in
theorem Between.idle (between : Between system Allowed sem shared sems s) (idle : s.Idle) : s.shared = shared := by
  cases between with
  | free memory semaphores waits => exact memory
  | taken i process body busy inside waits =>
    rw [idle i] at busy
    cases busy

/-- No call stops, and the processes do not all wait for each other. -/
theorem Exclusive.live (exclusive : Exclusive system Allowed sem Quiet view Effect) (between : Between system Allowed sem shared sems s)
    (quiet : Quiet shared sems) : s.Live := by
  have waiting : ∀ process, Waits system Allowed sem process → process.rest ≠ .stop := by
    rintro process ⟨-, -, rest, body, program, -⟩ stopped
    rw [rest, program] at stopped
    cases stopped
  cases between with
  | free memory semaphores waits =>
    refine ⟨fun i process busy => waiting process (waits i process busy), fun i process busy => ⟨i, process, busy, ?_⟩⟩
    obtain ⟨-, -, rest, body, program, -⟩ := waits i process busy
    rw [rest, program, Thread.next, semaphores, exclusive.free shared sems quiet]
    rfl
  | taken i process body busy inside waits =>
    obtain ⟨value, shared', own', sems', ran, -⟩ := exclusive.effective process.call shared sems inside.allowed quiet
    have goes : (process.rest.next (s.shared, process.own) s.sems).isSome := by
      rw [Option.isSome_iff_ne_none]
      intro stuck
      have nowhere := Thread.alone_of_next_none (inside.rest ▸ enclosed_ne_ret sem body) stuck
      rw [inside.same, ran] at nowhere
      cases nowhere
    refine ⟨?_, fun _ _ _ => ⟨i, process, busy, goes⟩⟩
    intro j other found
    by_cases same : j = i
    · subst same
      rw [busy] at found
      cases found
      intro stopped
      rw [stopped] at goes
      cases goes
    · exact waiting other (waits j same other found)

end Ucore.Interleaving
