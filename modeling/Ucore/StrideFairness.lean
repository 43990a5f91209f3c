import Ucore.StrideProofs

/-! How `schedule` shares the CPU. Every turn is charged the pass of its process,
and the strides of the processes that may run stay close, so two of them get turns
in inverse proportion to their passes. -/
namespace Ucore.Stride
open Sched SkewHeap Runs

/-- Whether the event gives the CPU to a process. -/
def gained (pid : Nat) (after : Kernel) : Event → Nat
  | .schedule => if after.current = pid then 1 else 0
  | _ => 0

/-- How often a run gives the CPU to a process. -/
def turns (pid : Nat) : Kernel → List Event → Nat
  | _, [] => 0
  | k, event :: events =>
    match step k event with
    | some after => gained pid after event + turns pid after events
    | none => 0

/-- The process is there and has this priority. -/
def HasPriority (pid : Nat) (priority : BitVec 32) (traced : Traced) (_ : Event) : Prop :=
  (traced.kernel.procs pid).state ≠ .uninit ∧ (traced.kernel.procs pid).lab6Priority = priority

theorem Stepped.scheduled {traced : Traced} (stepped : Stepped traced) (apart : pid ≠ idleproc)
    (ran : Stride.schedule traced.kernel = some after) :
    stridesAfter traced .schedule pid = traced.strides pid +
      gained pid after .schedule * (pass (traced.kernel.procs pid).lab6Priority).toNat := by
  obtain ⟨after', ran', -, chosen⟩ := stepped.queued.schedule
  obtain ⟨-, keeps⟩ := stepped.requeue
  cases ran'.symm.trans ran
  rcases chosen with ⟨root, rfl⟩ | ⟨next, root, -, rfl⟩
  · simp [stridesAfter, root, gained, apart.symm]
  · have current : (taken (Stride.requeue traced.kernel) next).current = next := rfl
    simp only [stridesAfter, root, gained, current]
    by_cases here : next = pid
    · subst here
      rw [if_pos rfl, Function.update_self, (keeps next).2, Nat.one_mul]
    · rw [if_neg here, Function.update_of_ne (Ne.symm here), Nat.zero_mul, Nat.add_zero]

/-- A stride grows by the pass at each turn, and by nothing else. -/
theorem Stepped.grows {traced after : Traced} (stepped : Stepped traced) (apart : pid ≠ idleproc)
    (has : HasPriority pid priority traced event) (ran : traced.step event = some after) :
    after.strides pid = traced.strides pid + gained pid after.kernel event * (pass priority).toNat := by
  obtain ⟨k, stepped', rfl⟩ := Option.map_eq_some_iff.mp ran
  obtain ⟨alive, rfl⟩ := has
  cases event with
  | create fresh =>
    simp only [stridesAfter, gained, Nat.zero_mul, Nat.add_zero]
    by_cases free : (traced.kernel.procs fresh).state = .uninit
    · rw [if_pos free, Function.update_of_ne]
      rintro rfl
      exact alive free
    · rw [if_neg free]
  | schedule => exact stepped.scheduled apart stepped'
  | _ => simp [stridesAfter, gained]

theorem Stepped.run_grows {traced final : Traced} (stepped : Stepped traced) (apart : pid ≠ idleproc)
    (meets : Along Traced.step Meets traced events)
    (has : Along Traced.step (HasPriority pid priority) traced events)
    (ran : run Traced.step traced events = some final) :
    final.strides pid = traced.strides pid + turns pid traced.kernel events * (pass priority).toNat := by
  induction events generalizing traced with
  | nil =>
    cases ran
    simp [turns]
  | cons event events ih =>
    obtain ⟨after, ran', rest⟩ := Option.bind_eq_some_iff.mp ran
    have stepped' : Stepped after := (step_stepped traced event stepped meets.1).2 after ran'
    have kernel : Stride.step traced.kernel event = some after.kernel := by
      obtain ⟨k, same, rfl⟩ := Option.map_eq_some_iff.mp ran'
      exact same
    rw [ih stepped' (meets.2 after ran') (has.2 after ran') rest, stepped.grows apart has.1 ran']
    simp only [turns, kernel]
    ring

theorem Stepped.reaches {traced final : Traced} (stepped : Stepped traced)
    (meets : Along Traced.step Meets traced events) (ran : run Traced.step traced events = some final) :
    Stepped final :=
  run_keeps (fun state event after stepped meets ran => (step_stepped state event stepped meets).2 after ran)
    stepped meets ran

/-- Between two moments at which both may run, two processes get the CPU in
inverse proportion to their passes, up to two times `BIG_STRIDE`; a process that
waits for its turn sees any other get only so many. -/
theorem turns_proportional (events : List Event) (lawful : Along Traced.step Meets .boot before)
    (begun : run Traced.step .boot before = some start) (meets : Along Traced.step Meets start events)
    (ended : run Traced.step start events = some final)
    (awake : Runnable start.kernel p ∧ Runnable start.kernel q)
    (awake' : Runnable final.kernel p ∧ Runnable final.kernel q)
    (has : Along Traced.step (HasPriority p priority) start events)
    (has' : Along Traced.step (HasPriority q priority') start events) :
    turns p start.kernel events * (pass priority).toNat ≤
      turns q start.kernel events * (pass priority').toNat + 2 * bigStride.toNat := by
  have stepped : Stepped start := boot_stepped.reaches lawful begun
  have stepped' : Stepped final := stepped.reaches meets ended
  have grown := stepped.run_grows awake.1.2 meets has ended
  have grown' := stepped.run_grows awake.2.2 meets has' ended
  have close : start.strides q ≤ start.strides p + bigStride.toNat := stepped.spread q p awake.2 awake.1
  have close' : final.strides p ≤ final.strides q + bigStride.toNat := stepped'.spread p q awake'.1 awake'.2
  omega

instance : Decidable (HasPriority pid priority traced event) := inferInstanceAs (Decidable (_ ∧ _))

instance : Decidable (Runnable k pid) := inferInstanceAs (Decidable (_ ∧ _))

def sixTurns : List Event := .replicate 6 .schedule

theorem twoShares_run : (run Traced.step .boot twoShares).isSome := by decide +kernel

def sharing : Traced := (run Traced.step .boot twoShares).get twoShares_run

theorem sixTurns_run : (run Traced.step sharing sixTurns).isSome := by decide +kernel

def shared : Traced := (run Traced.step sharing sixTurns).get sixTurns_run

/-- Of six turns the priorities 4 and 2 get four and two. -/
theorem turns_proportional_shared : turns 2 sharing.kernel sixTurns = 4 ∧ turns 1 sharing.kernel sixTurns = 2 ∧
    turns 2 sharing.kernel sixTurns * (pass 4).toNat ≤
      turns 1 sharing.kernel sixTurns * (pass 2).toNat + 2 * bigStride.toNat := by
  have begun : run Traced.step .boot twoShares = some sharing := (Option.some_get twoShares_run).symm
  have ended : run Traced.step sharing sixTurns = some shared := (Option.some_get sixTurns_run).symm
  have meets : Along Traced.step Meets sharing sixTurns := by
    apply along_of_forall
    intro event inside
    cases List.eq_of_mem_replicate inside
    exact fun _ => trivial
  have awake : Runnable sharing.kernel 2 ∧ Runnable sharing.kernel 1 := by decide +kernel
  have awake' : Runnable shared.kernel 2 ∧ Runnable shared.kernel 1 := by decide +kernel
  have has : Along Traced.step (HasPriority 2 4) sharing sixTurns := by decide +kernel
  have has' : Along Traced.step (HasPriority 1 2) sharing sixTurns := by decide +kernel
  exact ⟨by decide +kernel, by decide +kernel,
    turns_proportional sixTurns twoShares_lawful begun meets ended awake awake' has has'⟩

end Ucore.Stride
