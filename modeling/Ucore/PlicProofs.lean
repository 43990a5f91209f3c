import Ucore.Plic

/-! What the interrupts on the two lines run. The flag is that of the latest
registration on either line, and the context is always null, since `trap.c`
reads a table that no registration writes. -/
namespace Ucore.PlicProofs
open Plic Runs

variable {τ : Type} {state : Tracked τ} {line : Line} {events : List (Event τ)}

/-- The two lines are dispatched alike. -/
theorem trapInExt_line (plic : Controller τ) (line : Line) :
    trapInExt plic line.irq = (callback plic.plicCallbackFlag).map fun callback => .run callback (plic.trapInstance line.irq) := by
  cases line <;> rfl

theorem step_total (state : Tracked τ) (event : Event τ) : ∃ after, step state event = some after := by
  cases event with
  | register line flag ctx => exact ⟨_, rfl⟩
  | interrupt line => exact ⟨state, rfl⟩

/-- The table of `trap.c` stays as it was at boot, and the flag is the latest. -/
structure Sound (state : Tracked τ) : Prop where
  trapInstance : ∀ irq, state.plic.trapInstance irq = none
  flag : state.plic.plicCallbackFlag = state.latest.getD 0

theorem Sound.fresh : Sound (fresh : Tracked τ) := ⟨fun _ => rfl, rfl⟩

theorem Sound.step {event : Event τ} {after : Tracked τ} (sound : Sound state) (ran : step state event = some after) :
    Sound after := by
  cases event with
  | register line flag ctx =>
    cases ran
    exact ⟨sound.trapInstance, rfl⟩
  | interrupt line =>
    cases ran
    exact sound

/-- Every interrupt runs the latest callback of all on a null context. -/
theorem Sound.runs (sound : Sound state) (line : Line) :
    trapInExt state.plic line.irq = (state.latest.bind callback).map fun callback => .run callback none := by
  rw [trapInExt_line, sound.flag, sound.trapInstance]
  cases state.latest with
  | none => rfl
  | some flag => rfl

/-! ## The claims of the lines -/

/-- An interrupt runs what its line has registered. -/
def Serves (state : Tracked τ) : Event τ → Prop
  | .register _ _ _ => True
  | .interrupt line => trapInExt state.plic line.irq = wanted state line

/-- A registration does not change what an interrupt on another line runs. -/
def Isolates (state : Tracked τ) : Event τ → Prop
  | .register line flag ctx => ∀ other ≠ line,
    trapInExt (plicIrqRegister state.plic line.irq flag ctx) other.irq = trapInExt state.plic other.irq
  | .interrupt _ => True

/-- The event registers no callback. -/
def Idle : Event τ → Prop
  | .register _ flag _ => callback flag = none
  | .interrupt _ => True

/-- When the interrupt comes, the latest registration of all names the callback that the
line's own latest names, with a null context, or neither names one. -/
def Timely (state : Tracked τ) : Event τ → Prop
  | .register _ _ _ => True
  | .interrupt line => match state.registered line with
    | none => state.latest.bind callback = none
    | some (flag, ctx) => state.latest.bind callback = callback flag ∧ (callback flag = none ∨ ctx = none)

theorem Sound.serves_iff (sound : Sound state) (event : Event τ) : Serves state event ↔ Timely state event := by
  cases event with
  | register line flag ctx => exact Iff.rfl
  | interrupt line =>
    rw [Serves, sound.runs, wanted, Timely]
    cases state.registered line with
    | none => simp
    | some own =>
      obtain ⟨flag, ctx⟩ := own
      change Option.map _ _ = (callback flag).bind _ ↔ _ = callback flag ∧ (callback flag = none ∨ ctx = none)
      generalize callback flag = named
      cases state.latest.bind callback with
      | none => cases named <;> simp
      | some latest => cases named <;> simp [eq_comm]

theorem serves_iff_timely : Along step Serves (fresh : Tracked τ) events ↔ Along step Timely fresh events := by
  have exchange {Meets Holds : Tracked τ → Event τ → Prop}
      (same : ∀ state event, Sound state → (Meets state event ↔ Holds state event))
      (along : Along step Meets fresh events) : Along step Holds fresh events :=
    along_of_invariant (fun state event sound meets => ⟨(same state event sound).mp meets, fun _ => sound.step⟩)
      Sound.fresh along
  exact ⟨exchange fun _ event sound => sound.serves_iff event, exchange fun _ event sound => (sound.serves_iff event).symm⟩

/-! ## Idle runs -/

/-- No callback has been registered. -/
structure Quiet (state : Tracked τ) : Prop extends Sound state where
  latest : state.latest.bind callback = none
  registered : ∀ line flag ctx, state.registered line = some (flag, ctx) → callback flag = none

theorem Quiet.fresh : Quiet (fresh : Tracked τ) := ⟨Sound.fresh, rfl, nofun⟩

theorem Quiet.runs (quiet : Quiet state) (line : Line) : trapInExt state.plic line.irq = none := by
  rw [quiet.toSound.runs, quiet.latest]
  rfl

theorem Quiet.step {event : Event τ} {after : Tracked τ} (quiet : Quiet state) (idle : Idle event)
    (ran : step state event = some after) : Quiet after := by
  refine ⟨quiet.toSound.step ran, ?_, ?_⟩
  · cases event with
    | register line flag ctx =>
      cases ran
      exact idle
    | interrupt line =>
      cases ran
      exact quiet.latest
  · cases event with
    | register line flag ctx =>
      cases ran
      intro other flag' ctx' here
      by_cases same : other = line
      · subst same
        obtain ⟨rfl, rfl⟩ : flag = flag' ∧ ctx = ctx' := by simpa using here
        exact idle
      · exact quiet.registered other flag' ctx' (by simpa [same] using here)
    | interrupt line =>
      cases ran
      exact quiet.registered

/-- The other line tells a registration that names a callback. -/
theorem Quiet.isolates_iff (quiet : Quiet state) (event : Event τ) : Isolates state event ↔ Idle event := by
  cases event with
  | interrupt line => exact Iff.rfl
  | register line flag ctx =>
    rw [Isolates, Idle]
    simp only [quiet.runs, trapInExt_line, Option.map_eq_none_iff]
    refine ⟨fun isolated => ?_, fun idle _ _ => idle⟩
    cases line with
    | ai => exact isolated .dma5 (by decide)
    | dma5 => exact isolated .ai (by decide)

theorem Quiet.serves (quiet : Quiet state) (event : Event τ) : Serves state event := by
  rw [quiet.toSound.serves_iff]
  cases event with
  | register line flag ctx => trivial
  | interrupt line =>
    rw [Timely]
    split
    · exact quiet.latest
    · rename_i flag ctx here
      have none_named := quiet.registered line flag ctx here
      exact ⟨quiet.latest.trans none_named.symm, .inl none_named⟩

/-- Interrupts run what was registered for their line, and registrations leave the other
line alone, in exactly the runs in which no callback is ever registered. Interrupts alone
run the right callback in exactly the runs in which all come timely. -/
theorem callbacks_reach_iff (events : List (Event τ)) :
    (Along step (fun state event => Serves state event ∧ Isolates state event) fresh events ↔ ∀ event ∈ events, Idle event) ∧
    (Along step Serves fresh events ↔ Along step Timely fresh events) := by
  refine ⟨⟨fun along => ?_, fun idle => ?_⟩, serves_iff_timely⟩
  · have idle : Along step (fun _ event => Idle event) fresh events := by
      apply along_of_invariant (fun state event quiet meets => ?_) Quiet.fresh along
      have idle := (quiet.isolates_iff event).mp meets.2
      exact ⟨idle, fun _ => quiet.step idle⟩
    exact idle.of_total step_total
  · apply along_of_invariant (fun state event quiet idle => ?_) Quiet.fresh (along_of_forall (fun event member _ => idle event member) _)
    exact ⟨⟨quiet.serves event, (quiet.isolates_iff event).mpr idle⟩, fun _ => quiet.step idle⟩

/-! ## A network -/

/-- Once a network runs on a channel, an interrupt of the accelerator ends it on a null task
in place of feeding it more layers. -/
theorem cnnRun_interrupts (plic : Controller τ) (boots : ∀ irq, plic.trapInstance irq = none) (dmaCh : Fin 6) (task : τ)
    (line : Line) : trapInExt (cnnRun plic dmaCh task) line.irq = some (.run .cnnRunAllDone none) := by
  rw [trapInExt_line]
  change some (Action.run Callback.cnnRunAllDone (plic.trapInstance line.irq)) = _
  rw [boots]

/-- While a network waits for its input on channel 5, the interrupt of the channel is handled for
a null task in place of its own. -/
theorem cnnRun_misdirected : ¬ Along step (fun state event => Serves state event ∧ Isolates state event) (fresh : Tracked Unit)
    [.register .ai cnnContinueFlag (some ()), .register .dma5 cnnInputDoneFlag (some ()), .interrupt .dma5] := by
  intro along
  have served := ((along.2 _ rfl).2 _ rfl).1.1
  revert served
  unfold Serves
  decide

end Ucore.PlicProofs
