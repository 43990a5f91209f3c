import Ucore.RunQueueProofs

/-! No wake-up is lost and no process is orphaned, over every order of calls, switches and
interrupts. A process that sleeps in a call is on the list from which it will be woken, or has no
child that it should have been woken for; and the parent of a process has not exited. -/
namespace Ucore.RunQueue
open Sched (Timer TimerAddr Semaphore ProcState wtChild wtKsem wtTimer wtKbd interruptible addLoop delLoop)
open TimerProofs (names)
open Runs

/-- The process is there, and has not exited. -/
def Alive (k : Kernel) (pid : Nat) : Prop := state k pid ≠ .uninit ∧ state k pid ≠ .zombie

/-- The children of a process are the processes whose parent it is. Only a process that is
about to hand its children over, `leaver`, has exited and still has some. -/
structure Family (k : Kernel) (children : Nat → List Nat) (leaver : Option Nat) : Prop where
  listed : ∀ pid child, child ∈ children pid ↔ child ≠ idleproc ∧ state k child ≠ .uninit ∧ k.parent child = pid
  once : ∀ pid, (children pid).Nodup
  childless : ∀ pid, leaver ≠ some pid → ¬ Alive k pid → children pid = []
  init : Alive k initproc
  controller : Alive k kpuTaskCtrlProc

/-- Somebody has to wake a process that sleeps in this call. Only the controller sleeps in none. -/
def Awaited (k : Kernel) (timers : List Timer) (readers : List Nat) (pid : Nat) : Option Frame → Prop
  | none => pid = kpuTaskCtrlProc
  | some .sleep => ∃ name ∈ names timers, name.2 = pid
  | some (.down sem _) => pid ∈ (k.sems sem).waitQueue
  | some (.stdin _ _) => pid ∈ readers
  | some (.wait child) => waitState k pid = wtChild ∧
      ∀ other, k.parent other = pid → child = 0 ∨ other = child → state k other ≠ .zombie
  | some .kpu => True

/-- The lists are those of the kernel, or what a loop will leave of them. -/
structure Attended (k : Kernel) (timers : List Timer) (readers : List Nat) (children : Nat → List Nat) (leaver : Option Nat) : Prop where
  family : Family k children leaver
  awaited : ∀ pid, state k pid = .sleeping → Awaited k timers readers pid (k.frames pid)

variable {k after : Kernel} {timers timers' : List Timer} {readers readers' : List Nat} {children children' : Nat → List Nat} {leaver : Option Nat} {pid : Nat}

/-- What a process waits for stays where it is. -/
theorem Awaited.keep {frame : Option Frame} (awaited : Awaited k timers readers pid frame)
    (sleeps : ∀ name ∈ names timers, name.2 = pid → name ∈ names timers') (downs : ∀ sem, pid ∈ (k.sems sem).waitQueue → pid ∈ (after.sems sem).waitQueue)
    (reads : pid ∈ readers → pid ∈ readers') (waits : waitState after pid = waitState k pid)
    (alive : waitState k pid = wtChild → ∀ other, after.parent other = pid → state after other = .zombie →
      k.parent other = pid ∧ state k other = .zombie) :
    Awaited after timers' readers' pid frame := by
  match frame, awaited with
  | none, awaited => exact awaited
  | some .sleep, awaited =>
    obtain ⟨name, inList, own⟩ := awaited
    exact ⟨name, sleeps name inList own, own⟩
  | some (.down sem _), awaited => exact downs sem awaited
  | some (.stdin _ _), awaited => exact reads awaited
  | some (.wait child), awaited =>
    refine ⟨waits.trans awaited.1, fun other own among dead => ?_⟩
    obtain ⟨own', dead'⟩ := alive awaited.1 other own dead
    exact awaited.2 other own' among dead'
  | some .kpu, _ => trivial

/-- A process that was there is there, and none has exited. -/
theorem Family.same (family : Family k children leaver) (uninit : ∀ pid, state after pid = .uninit ↔ state k pid = .uninit)
    (zombie : ∀ pid, state after pid = .zombie → state k pid = .zombie) (parent : after.parent = k.parent) : Family after children leaver := by
  have alive (pid : Nat) (lives : Alive k pid) : Alive after pid := by
    refine ⟨?_, fun dead => lives.2 (zombie pid dead)⟩
    simpa only [ne_eq, uninit] using lives.1
  refine ⟨fun pid child => ?_, family.once, fun pid apart gone => ?_, alive _ family.init, alive _ family.controller⟩
  · rw [family.listed, parent]
    simp only [ne_eq, uninit]
  · exact family.childless pid apart fun lives => gone (alive pid lives)

/-- The family depends on the states and the parents only. -/
theorem Family.congr (family : Family k children leaver) (sched : after.sched = k.sched) (parent : after.parent = k.parent) :
    Family after children leaver := by
  have states (pid : Nat) : state after pid = state k pid := by rw [state, state, sched]
  exact family.same (fun pid => by rw [states]) (fun pid dead => states pid ▸ dead) parent

/-! ## Waking and going to sleep -/

theorem states_schedClassEnqueue (sched : Stride.Kernel) (pid other : Nat) :
    ((Stride.schedClassEnqueue sched pid).procs other).state = (sched.procs other).state ∧
      ((Stride.schedClassEnqueue sched pid).procs other).waitState = (sched.procs other).waitState := by
  unfold Stride.schedClassEnqueue
  split
  · exact ⟨Stride.states_strideEnqueue _ _ _, waits_strideEnqueue _ _ _⟩
  · exact ⟨rfl, rfl⟩

/-- One process is made to run, and the states of the others stay. -/
theorem states_wakeupProc {sched woken : Stride.Kernel} (ran : Stride.wakeupProc sched pid = some woken) :
    (sched.procs pid).state ≠ .zombie ∧ (woken.procs pid).state = .runnable ∧
      ∀ other, other ≠ pid → (woken.procs other).state = (sched.procs other).state ∧ (woken.procs other).waitState = (sched.procs other).waitState := by
  unfold Stride.wakeupProc at ran
  split at ran
  · cases ran
  · rename_i awake
    cases ran
    exact ⟨by simp [awake], awake, fun _ _ => ⟨rfl, rfl⟩⟩
  · rename_i alive _
    cases ran
    have alive : (sched.procs pid).state ≠ .zombie := alive
    refine ⟨alive, ?_, fun other apart => ?_⟩
    · split
      · rw [(states_schedClassEnqueue _ _ _).1]
        simp [Stride.setProc]
      · simp [Stride.setProc]
    · split
      · rw [(states_schedClassEnqueue _ _ _).1, (states_schedClassEnqueue _ _ _).2]
        simp [Stride.setProc, apart]
      · simp [Stride.setProc, apart]

theorem wakeupProc_spec (ran : wakeupProc k pid = .ok after) : state k pid ≠ .zombie ∧ after = { k with sched := after.sched } ∧
    current after = current k ∧ state after pid = .runnable ∧
    ∀ other, other ≠ pid → state after other = state k other ∧ waitState after other = waitState k other := by
  unfold wakeupProc at ran
  split at ran
  · rename_i sched woken
    cases ran
    obtain ⟨alive, awake, others⟩ := states_wakeupProc woken
    exact ⟨alive, rfl, wakeupProc_current woken, awake, others⟩
  · cases ran

/-- Waking a process that is there, and may have had nobody to wake it. -/
theorem attended_of_wakeup (family : Family k children leaver) (there : state k pid ≠ .uninit)
    (awaited : ∀ other, other ≠ pid → state k other = .sleeping → Awaited k timers readers other (k.frames other)) (ran : wakeupProc k pid = .ok after) :
    Attended after timers readers children leaver := by
  obtain ⟨alive, same, -, awake, others⟩ := wakeupProc_spec ran
  have frames : after.frames = k.frames := by rw [same]
  have parent : after.parent = k.parent := by rw [same]
  have sems : after.sems = k.sems := by rw [same]
  have zombie (other : Nat) (dead : state after other = .zombie) : state k other = .zombie := by
    by_cases here : other = pid
    · rw [here, awake] at dead
      cases dead
    · rwa [← (others other here).1]
  refine ⟨family.same (fun other => ?_) zombie parent, fun other asleep => ?_⟩
  · by_cases here : other = pid
    · simp [here, awake, there]
    · rw [(others other here).1]
  · have apart : other ≠ pid := by
      rintro rfl
      cases awake.symm.trans asleep
    rw [frames]
    apply (awaited other apart ((others other apart).1 ▸ asleep)).keep
    · exact fun name inList _ => inList
    · rw [sems]
      exact fun _ waits => waits
    · exact id
    · exact (others other apart).2
    · rw [parent]
      exact fun _ child own dead => ⟨own, zombie child dead⟩

theorem Attended.wake (attended : Attended k timers readers children leaver) (there : state k pid ≠ .uninit) (ran : wakeupProc k pid = .ok after) :
    Attended after timers readers children leaver :=
  attended_of_wakeup attended.family there (fun other _ => attended.awaited other) ran

/-- The current process marks itself asleep in a call in which it is awaited. -/
theorem Attended.sleepIn {frame : Option Frame} {flags : BitVec 32} (attended : Attended k timers readers children leaver) (awake : state k (current k) = .runnable)
    (awaited : Awaited (RunQueue.sleepIn k flags frame) timers readers (current k) frame) : Attended (RunQueue.sleepIn k flags frame) timers readers children leaver := by
  have states (pid : Nat) : state (RunQueue.sleepIn k flags frame) pid = if pid = current k then .sleeping else state k pid := by
    by_cases own : pid = current k <;> simp [RunQueue.sleepIn, setFrame, state, Stride.sleepIn, Stride.setProc, own]
  refine ⟨attended.family.same (fun pid => ?_) (fun pid dead => ?_) rfl, fun pid asleep => ?_⟩
  · rw [states]
    split
    · rename_i own
      simp [own, awake]
    · exact Iff.rfl
  · rw [states] at dead
    split at dead
    · cases dead
    · exact dead
  · by_cases own : pid = current k
    · subst own
      simpa [RunQueue.sleepIn, setFrame] using awaited
    · rw [states, if_neg own] at asleep
      have frames : (RunQueue.sleepIn k flags frame).frames pid = k.frames pid := Function.update_of_ne own _ _
      rw [frames]
      apply (attended.awaited pid asleep).keep
      · exact fun name inList _ => inList
      · exact fun _ waits => waits
      · exact id
      · simp [RunQueue.sleepIn, setFrame, waitState, Stride.sleepIn, Stride.setProc, own]
      · intro _ child parent dead
        rw [states] at dead
        split at dead
        · cases dead
        · exact ⟨parent, dead⟩

/-! ## Operations -/

/-- Where a call returns, the kernel has this property. -/
def Leaves (Holds : Kernel → Prop) (call : Except Fault Kernel) : Prop := ∀ after, call = .ok after → Holds after

theorem Leaves.ok {Holds : Kernel → Prop} (holds : Holds k) : Leaves Holds (.ok k) := by
  intro after ran
  cases ran
  exact holds

theorem Leaves.error {Holds : Kernel → Prop} (fault : Fault) : Leaves Holds (.error fault) := by
  intro after ran
  cases ran

theorem Leaves.bind {Between Holds : Kernel → Prop} {call : Except Fault Kernel} {rest : Kernel → Except Fault Kernel}
    (leaves : Leaves Between call) (behind : ∀ k, Between k → Leaves Holds (rest k)) : Leaves Holds (call >>= rest) := by
  intro after ran
  cases returned : call with
  | ok between =>
    rw [returned] at ran
    exact behind between (leaves between returned) after ran
  | error fault =>
    rw [returned] at ran
    cases ran

/-- Everyone is attended to. -/
abbrev Settled (k : Kernel) : Prop := Attended k k.timerList k.stdinQueue k.children none

theorem Attended.doFork (attended : Settled k) (idle : state k idleproc = .runnable) (awake : state k (current k) = .runnable)
    (unused : state k pid = .uninit) : Leaves Settled (RunQueue.doFork k pid) := by
  unfold RunQueue.doFork
  split
  · exact Leaves.error _
  · intro after ran
    obtain ⟨-, same, -, woken, others⟩ := wakeupProc_spec ran
    obtain ⟨sched, rfl⟩ : ∃ sched, after = { k with
        sched := sched
        exiting := Function.update k.exiting pid false
        parent := Function.update k.parent pid (current k)
        children := Function.update (Function.update k.children pid []) (current k) (pid :: k.children (current k)) } := ⟨_, same⟩
    have family := attended.family
    have apart : pid ≠ current k := by
      rintro rfl
      cases awake.symm.trans unused
    have notIdle : pid ≠ idleproc := by
      rintro rfl
      cases idle.symm.trans unused
    have fresh (parent : Nat) : pid ∉ k.children parent := fun listed => ((family.listed parent pid).mp listed).2.1 unused
    have alone : k.children pid = [] := family.childless pid (by simp) fun lives => lives.1 unused
    have kids : Function.update (Function.update k.children pid []) (current k) (pid :: k.children (current k)) =
        Function.update k.children (current k) (pid :: k.children (current k)) := by
      rw [← alone, Function.update_eq_self]
    have states (other : Nat) (away : other ≠ pid) : (sched.procs other).state = state k other ∧ (sched.procs other).waitState = waitState k other := by
      refine ⟨(others other away).1.trans ?_, (others other away).2.trans ?_⟩
      · simp [state, Stride.setProc, away]
      · simp [waitState, Stride.setProc, away]
    have woken : (sched.procs pid).state = .runnable := woken
    have alive (other : Nat) (lives : Alive k other) : (sched.procs other).state ≠ .uninit ∧ (sched.procs other).state ≠ .zombie := by
      by_cases own : other = pid
      · simp [own, woken]
      · rw [(states _ own).1]
        exact lives
    refine ⟨⟨fun parent child => ?_, fun parent => ?_, fun parent _ gone => ?_, alive _ family.init, alive _ family.controller⟩, fun other asleep => ?_⟩
    · simp only [kids, state]
      by_cases own : child = pid
      · subst own
        by_cases here : parent = current k
        · simp [here, notIdle, woken]
        · simp [here, fresh, Ne.symm here]
      · rw [(states child own).1, Function.update_of_ne own, ← family.listed]
        by_cases here : parent = current k
        · simp [here, own]
        · rw [Function.update_of_ne here]
    · simp only [kids]
      by_cases here : parent = current k
      · subst here
        rw [Function.update_self, List.nodup_cons]
        exact ⟨fresh _, family.once _⟩
      · rw [Function.update_of_ne here]
        exact family.once parent
    · simp only [kids]
      have away : parent ≠ pid := by
        rintro rfl
        apply gone
        simp [Alive, state, woken]
      rw [Alive, state, (states parent away).1] at gone
      have here : parent ≠ current k := by
        rintro rfl
        apply gone
        simp [awake]
      rw [Function.update_of_ne here]
      exact family.childless parent (by simp) gone
    · have away : other ≠ pid := by
        rintro rfl
        cases woken.symm.trans asleep
      apply (attended.awaited other ((states other away).1 ▸ asleep)).keep
      · exact fun name inList _ => inList
      · exact fun _ waits => waits
      · exact id
      · exact (states other away).2
      · intro _ child own dead
        have apart : child ≠ pid := by
          rintro rfl
          cases woken.symm.trans dead
        simp only [Function.update_of_ne apart] at own
        exact ⟨own, (states child apart).1 ▸ dead⟩

/-- A process that waits for its children is woken, and the others have somebody to wake them. -/
theorem wakeInState_attended (family : Family k children leaver) (there : state k pid ≠ .uninit)
    (awaited : ∀ other, other = pid ∧ waitState k pid = wtChild ∨ (state k other = .sleeping → Awaited k timers readers other (k.frames other))) :
    Leaves (fun after => Attended after timers readers children leaver ∧ ∃ sched, after = { k with sched }) (wakeInState k pid) := by
  unfold wakeInState
  split
  · intro after ran
    refine ⟨attended_of_wakeup family there (fun other apart => ?_) ran, after.sched, (wakeupProc_spec ran).2.1⟩
    exact (awaited other).resolve_left fun same => apart same.1
  · rename_i busy
    apply Leaves.ok
    refine ⟨⟨family, fun other => ?_⟩, k.sched, rfl⟩
    exact (awaited other).resolve_left fun same => busy same.2

/-- A child gets `initproc` as its parent. -/
def handOver (k : Kernel) (child : Nat) : Kernel :=
  { k with
    parent := Function.update k.parent child initproc
    children := Function.update k.children initproc (child :: k.children initproc) }

theorem handChildren_cons (k : Kernel) (pid child : Nat) (rest : List Nat) :
    RunQueue.handChildren k pid (child :: rest) =
      ((if state k child = .zombie then wakeInState (handOver k child) initproc else .ok (handOver k child)) >>=
        fun k => RunQueue.handChildren k pid rest) := by
  simp only [RunQueue.handChildren]
  by_cases dead : state k child = .zombie
  · rw [if_pos dead]
    exact if_pos dead
  · rw [if_neg dead]
    exact if_neg dead

theorem Family.hand {child : Nat} {rest : List Nat} (family : Family k (Function.update k.children pid (child :: rest)) (some pid)) (apart : pid ≠ initproc) :
    Family (handOver k child) (Function.update (handOver k child).children pid rest) (some pid) := by
  have own := (family.listed pid child).mp (by simp)
  have once := family.once pid
  rw [Function.update_self, List.nodup_cons] at once
  have others (parent : Nat) (away : parent ≠ pid) (other : Nat) :
      other ∈ k.children parent ↔ other ≠ idleproc ∧ state k other ≠ .uninit ∧ k.parent other = parent := by
    have listed := family.listed parent other
    rwa [Function.update_of_ne away] at listed
  have elsewhere (parent : Nat) (away : parent ≠ pid) : child ∉ k.children parent := by
    rw [others parent away]
    exact fun listed => away (listed.2.2.symm.trans own.2.2)
  have kids (parent : Nat) (init : parent ≠ initproc) : (handOver k child).children parent = k.children parent := Function.update_of_ne init _ _
  have more : (handOver k child).children initproc = child :: k.children initproc := by simp [handOver]
  refine ⟨fun parent other => ?_, fun parent => ?_, fun parent away gone => ?_, family.init, family.controller⟩
  · change other ∈ _ ↔ other ≠ idleproc ∧ state k other ≠ .uninit ∧ Function.update k.parent child initproc other = parent
    by_cases same : other = child
    · subst same
      rw [Function.update_self]
      by_cases here : parent = pid
      · subst here
        simp [once.1, apart.symm]
      · rw [Function.update_of_ne here]
        by_cases init : parent = initproc
        · subst init
          simp [more, own.1, own.2.1]
        · rw [kids parent init]
          simp [elsewhere parent here, Ne.symm init]
    · rw [Function.update_of_ne same]
      by_cases here : parent = pid
      · subst here
        have listed := family.listed parent other
        rw [Function.update_self, List.mem_cons, or_iff_right same] at listed
        rw [Function.update_self]
        exact listed
      · rw [Function.update_of_ne here]
        by_cases init : parent = initproc
        · subst init
          rw [more, List.mem_cons, or_iff_right same]
          exact others _ here other
        · rw [kids parent init]
          exact others _ here other
  · by_cases here : parent = pid
    · subst here
      rw [Function.update_self]
      exact once.2
    · have before := family.once parent
      rw [Function.update_of_ne here] at before ⊢
      by_cases init : parent = initproc
      · subst init
        rw [more, List.nodup_cons]
        exact ⟨elsewhere _ here, before⟩
      · rwa [kids parent init]
  · have here : parent ≠ pid := fun same => away (congrArg some same.symm)
    have init : parent ≠ initproc := by
      rintro rfl
      exact gone family.init
    have before := family.childless parent away gone
    rw [Function.update_of_ne here] at before ⊢
    rwa [kids parent init]

theorem Attended.handChildren {rest : List Nat} (attended : Attended k timers readers (Function.update k.children pid rest) (some pid)) (apart : pid ≠ initproc) :
    Leaves (fun after => Attended after timers readers after.children none ∧ after.timerList = k.timerList ∧ after.stdinQueue = k.stdinQueue)
      (RunQueue.handChildren k pid rest) := by
  induction rest generalizing k with
  | nil =>
    apply Leaves.ok
    refine ⟨⟨⟨attended.family.listed, attended.family.once, fun parent _ gone => ?_, attended.family.init, attended.family.controller⟩, attended.awaited⟩, rfl, rfl⟩
    by_cases here : parent = pid
    · subst here
      exact Function.update_self _ _ _
    · exact attended.family.childless parent (fun same => here (Option.some.inj same).symm) gone
  | cons child rest ih =>
    have family := attended.family.hand apart
    have awaited (other : Nat) (asleep : state k other = .sleeping)
        (still : state k child = .zombie → other = initproc → waitState k initproc ≠ wtChild) :
        Awaited (handOver k child) timers readers other (k.frames other) := by
      apply (attended.awaited other asleep).keep
      · exact fun name inList _ => inList
      · exact fun _ waits => waits
      · exact id
      · rfl
      · intro waits grandchild own dead
        by_cases same : grandchild = child
        · subst same
          simp only [handOver, Function.update_self] at own
          subst own
          exact absurd waits (still dead rfl)
        · simp only [handOver, Function.update_of_ne same] at own
          exact ⟨own, dead⟩
    rw [handChildren_cons]
    split
    · have woken : Leaves (fun after => Attended after timers readers (Function.update (handOver k child).children pid rest) (some pid) ∧
          ∃ sched, after = { handOver k child with sched := sched }) (wakeInState (handOver k child) initproc) := by
        apply wakeInState_attended family family.init.1
        intro other
        by_cases waits : other = initproc ∧ waitState k initproc = wtChild
        · exact .inl waits
        · exact .inr fun asleep => awaited other asleep fun _ init => not_and.mp waits init
      refine woken.bind ?_
      rintro after ⟨attended', sched, rfl⟩
      exact ih attended'
    · rename_i alive
      apply ih
      exact ⟨family, fun other asleep => awaited other asleep fun dead => absurd dead alive⟩

/-- Whoever waits for the process that exits is woken, and `initproc` for its dead children. -/
theorem Attended.doExit (attended : Settled k) (awake : state k (current k) = .runnable) (busy : current k ≠ idleproc) (may : mayExit k) :
    Leaves Settled (RunQueue.doExit k) := by
  simp only [mayExit, Bool.and_eq_true, decide_eq_true_eq] at may
  have family := attended.family
  have states (pid : Nat) : state { k with sched := Stride.zombify k.sched } pid = if pid = current k then .zombie else state k pid := by
    by_cases own : pid = current k <;> simp [state, Stride.zombify, Stride.setProc, own]
  have waits (pid : Nat) : waitState { k with sched := Stride.zombify k.sched } pid = waitState k pid := by
    by_cases own : pid = current k <;> simp [waitState, Stride.zombify, Stride.setProc, own]
  have uninit (pid : Nat) : state { k with sched := Stride.zombify k.sched } pid = .uninit ↔ state k pid = .uninit := by
    rw [states]
    split
    · rename_i own
      simp [own, awake]
    · exact Iff.rfl
  have alive (pid : Nat) (apart : pid ≠ current k) : Alive { k with sched := Stride.zombify k.sched } pid ↔ Alive k pid := by
    rw [Alive, states, if_neg apart, Alive]
  have family' : Family { k with sched := Stride.zombify k.sched } k.children (some (current k)) := by
    refine ⟨fun pid child => ?_, family.once, fun pid apart gone => ?_, (alive _ may.1.2.symm).mpr family.init, (alive _ may.2.symm).mpr family.controller⟩
    · rw [family.listed]
      simp only [ne_eq, uninit]
    · have away : pid ≠ current k := fun same => apart (congrArg some same.symm)
      rw [alive pid away] at gone
      exact family.childless pid (by simp) gone
  have parented : current k ∈ k.children (k.parent (current k)) := by
    rw [family.listed]
    exact ⟨busy, by simp [awake], rfl⟩
  have there : state { k with sched := Stride.zombify k.sched } (k.parent (current k)) ≠ .uninit := by
    rw [Ne, uninit]
    intro gone
    have none := family.childless _ (by simp) fun lives : Alive k (k.parent (current k)) => lives.1 gone
    simp [none] at parented
  have woken : Leaves (fun after => Attended after k.timerList k.stdinQueue k.children (some (current k)) ∧
      ∃ sched, after = { k with sched := sched }) (wakeInState { k with sched := Stride.zombify k.sched } (k.parent (current k))) := by
    apply wakeInState_attended family' there
    intro other
    by_cases waiting : other = k.parent (current k) ∧ waitState k (k.parent (current k)) = wtChild
    · rw [waits]
      exact .inl waiting
    · refine .inr fun asleep => ?_
      rw [states] at asleep
      split at asleep
      · cases asleep
      · apply (attended.awaited other asleep).keep
        · exact fun name inList _ => inList
        · exact fun _ waits => waits
        · exact id
        · exact waits other
        · intro flags child own dead
          rw [states] at dead
          split at dead
          · rename_i exits
            subst exits
            subst own
            exact absurd ⟨rfl, flags⟩ waiting
          · exact ⟨own, dead⟩
  refine woken.bind ?_
  rintro after ⟨attended', sched, rfl⟩
  have leaves : Attended { k with sched := sched } k.timerList k.stdinQueue
      (Function.update k.children (current k) (k.children (current k))) (some (current k)) := by
    rw [Function.update_eq_self]
    exact attended'
  intro after ran
  obtain ⟨attended, timers, readers⟩ := leaves.handChildren may.1.2 after ran
  rw [Settled, timers, readers]
  exact attended

theorem Attended.reap (attended : Settled k) (dead : state k pid = .zombie) : Settled (RunQueue.reap k pid) := by
  have family := attended.family
  have states (other : Nat) (away : other ≠ pid) : state (RunQueue.reap k pid) other = state k other ∧
      waitState (RunQueue.reap k pid) other = waitState k other := by
    simp [RunQueue.reap, state, waitState, Stride.setProc, away]
  have freed : state (RunQueue.reap k pid) pid = .uninit := by simp [RunQueue.reap, state, Stride.setProc, Stride.allocProc]
  have kids (parent other : Nat) : other ∈ (RunQueue.reap k pid).children parent ↔ other ∈ k.children parent ∧ other ≠ pid := by
    by_cases own : parent = k.parent pid
    · subst own
      have erased : (RunQueue.reap k pid).children (k.parent pid) = (k.children (k.parent pid)).erase pid := Function.update_self _ _ _
      rw [erased, (family.once _).mem_erase_iff, and_comm]
    · have same : (RunQueue.reap k pid).children parent = k.children parent := Function.update_of_ne own _ _
      rw [same, iff_self_and]
      rintro listed rfl
      exact own ((family.listed parent other).mp listed).2.2.symm
  have alive (other : Nat) (lives : Alive k other) : Alive (RunQueue.reap k pid) other := by
    have away : other ≠ pid := by
      rintro rfl
      exact lives.2 dead
    rw [Alive, (states other away).1]
    exact lives
  refine ⟨⟨fun parent other => ?_, fun parent => ?_, fun parent _ gone => ?_, alive _ family.init, alive _ family.controller⟩, fun other asleep => ?_⟩
  · rw [kids, family.listed]
    by_cases own : other = pid
    · simp [own, freed]
    · rw [(states other own).1]
      simp [own, RunQueue.reap]
  · by_cases own : parent = k.parent pid
    · subst own
      have erased : (RunQueue.reap k pid).children (k.parent pid) = (k.children (k.parent pid)).erase pid := Function.update_self _ _ _
      rw [erased]
      exact (family.once _).erase _
    · have same : (RunQueue.reap k pid).children parent = k.children parent := Function.update_of_ne own _ _
      rw [same]
      exact family.once parent
  · have none : k.children parent = [] := by
      apply family.childless parent (by simp)
      exact fun lives => gone (alive parent lives)
    apply List.eq_nil_iff_forall_not_mem.mpr
    intro other listed
    rw [kids, none] at listed
    exact List.not_mem_nil listed.1
  · have away : other ≠ pid := by
      rintro rfl
      cases freed.symm.trans asleep
    apply (attended.awaited other ((states other away).1 ▸ asleep)).keep
    · exact fun name inList _ => inList
    · exact fun _ waits => waits
    · exact id
    · exact (states other away).2
    · intro _ child own gone
      have away : child ≠ pid := by
        rintro rfl
        cases freed.symm.trans gone
      exact ⟨own, (states child away).1 ▸ gone⟩

/-- A process that finds no dead child is woken by the next one that exits. -/
theorem Attended.doWait (attended : Settled k) (idle : state k idleproc = .runnable) (awake : state k (current k) = .runnable) (pid : Nat) :
    Leaves Settled (RunQueue.doWait k pid) := by
  unfold RunQueue.doWait
  split
  · rename_i child found
    split
    · exact Leaves.error _
    · have dead : state k child = .zombie := by simpa using List.find?_some found
      exact Leaves.ok (attended.reap dead)
  · rename_i missing
    apply Leaves.ok
    split
    · exact attended
    · apply attended.sleepIn awake
      refine ⟨by simp [RunQueue.sleepIn, setFrame, waitState, Stride.sleepIn, Stride.setProc], fun other own among dead => ?_⟩
      have apart : other ≠ current k := by
        rintro rfl
        simp [RunQueue.sleepIn, setFrame, state, Stride.sleepIn, Stride.setProc] at dead
      have gone : state k other = .zombie := by
        simpa [RunQueue.sleepIn, setFrame, state, Stride.sleepIn, Stride.setProc, apart] using dead
      have child : k.parent other = current k := own
      have candidate : other ∈ candidates k pid := by
        unfold candidates
        split
        · rename_i one
          have same := among.resolve_left one
          subst same
          have there : 0 < other ∧ state k other ≠ .uninit := ⟨Nat.pos_of_ne_zero one, by simp [gone]⟩
          simp only [findProc, if_pos there]
          simp [child]
        · rw [attended.family.listed]
          refine ⟨?_, by simp [gone], child⟩
          rintro rfl
          cases idle.symm.trans gone
      have none := List.find?_eq_none.mp missing other candidate
      simp [gone] at none

theorem Attended.doKill (attended : Settled k) (pid : Nat) : Leaves Settled (RunQueue.doKill k pid) := by
  unfold RunQueue.doKill
  cases found : findProc k pid with
  | none => exact Leaves.ok attended
  | some target =>
    have there : state k target ≠ .uninit := by
      unfold findProc at found
      split at found
      · rename_i there
        cases found
        exact there.2
      · cases found
    have marked : Settled { k with exiting := Function.update k.exiting target true } := ⟨attended.family.congr rfl rfl, attended.awaited⟩
    by_cases busy : k.exiting target
    · simpa only [busy, if_true] using Leaves.ok attended
    · simp only [busy, Bool.false_eq_true, if_false]
      split
      · intro after ran
        have same := (wakeupProc_spec ran).2.1
        have woken := marked.wake there ran
        rw [same] at woken ⊢
        exact woken
      · exact Leaves.ok marked

/-- More is on the lists. -/
theorem Attended.more (attended : Attended k timers readers children leaver) (sleeps : names timers ⊆ names timers') (reads : readers ⊆ readers') :
    Attended k timers' readers' children leaver := by
  refine ⟨attended.family, fun pid asleep => ?_⟩
  apply (attended.awaited pid asleep).keep
  · exact fun name inList _ => sleeps inList
  · exact fun _ waits => waits
  · exact fun waits => reads waits
  · rfl
  · exact fun _ _ own dead => ⟨own, dead⟩

/-- A process that does not sleep is on no list for a wake-up. -/
theorem Attended.less (attended : Attended k timers readers children leaver) (awake : state k pid ≠ .sleeping)
    (sleeps : ∀ name ∈ names timers, name.2 ≠ pid → name ∈ names timers') (reads : ∀ other ∈ readers, other ≠ pid → other ∈ readers') :
    Attended k timers' readers' children leaver := by
  refine ⟨attended.family, fun other asleep => ?_⟩
  have apart : other ≠ pid := by
    rintro rfl
    exact awake asleep
  apply (attended.awaited other asleep).keep
  · exact fun name inList own => sleeps name inList (own ▸ apart)
  · exact fun _ waits => waits
  · exact fun waits => reads other waits apart
  · rfl
  · exact fun _ _ own dead => ⟨own, dead⟩

theorem Attended.setFrame (attended : Attended k timers readers children leaver) (awake : state k pid ≠ .sleeping) (frame : Option Frame) :
    Attended (setFrame k pid frame) timers readers children leaver := by
  refine ⟨attended.family.congr rfl rfl, fun other asleep => ?_⟩
  have apart : other ≠ pid := by
    rintro rfl
    exact awake asleep
  have frames : (RunQueue.setFrame k pid frame).frames other = k.frames other := Function.update_of_ne apart _ _
  rw [frames]
  exact attended.awaited other asleep

theorem Attended.setSem {sem : Nat} {semaphore : Semaphore} (attended : Attended k timers readers children leaver)
    (waiters : ∀ other, state k other = .sleeping → other ∈ (k.sems sem).waitQueue → other ∈ semaphore.waitQueue) :
    Attended (setSem k sem semaphore) timers readers children leaver := by
  refine ⟨attended.family.congr rfl rfl, fun other asleep => ?_⟩
  apply (attended.awaited other asleep).keep
  · exact fun name inList _ => inList
  · intro sem' waits
    by_cases same : sem' = sem
    · subst same
      simpa [RunQueue.setSem] using waiters other asleep waits
    · simpa [RunQueue.setSem, same] using waits
  · exact id
  · rfl
  · exact fun _ _ own dead => ⟨own, dead⟩

/-! ## Timers -/

/-- A timer that is deleted takes no other with it. -/
theorem names_delLoop_others {addr : TimerAddr} {name : TimerAddr × Nat} (listed : name ∈ names timers) (apart : name.1 ≠ addr) :
    name ∈ names (delLoop addr timers) := by
  induction timers with
  | nil => exact listed
  | cons timer rest ih =>
    rcases List.mem_cons.mp listed with rfl | inRest
    · have away : timer.addr ≠ addr := apart
      simp [delLoop, names, away]
    · by_cases found : timer.addr = addr
      · have same : names (delLoop addr (timer :: rest)) = names rest := by
          cases rest <;> by_cases zero : timer.expires = 0 <;> simp [delLoop, Sched.handOn, names, found, zero]
        rwa [same]
      · have same : names (delLoop addr (timer :: rest)) = (timer.addr, timer.proc) :: names (delLoop addr rest) := by
          simp [delLoop, names, found]
        rw [same]
        exact List.mem_cons_of_mem _ (ih inRest)

theorem Attended.doSleep (attended : Settled k) (awake : state k (current k) = .runnable) (time : Nat) : Leaves Settled (RunQueue.doSleep k time) := by
  unfold RunQueue.doSleep RunQueue.addTimer
  split
  · exact Leaves.ok attended
  · split
    · have added (name : TimerAddr × Nat) := (TimerProofs.names_addLoop ⟨.stack (current k), current k, time⟩ k.timerList).mem_iff (a := name)
      have longer : Attended k (addLoop ⟨.stack (current k), current k, time⟩ k.timerList) k.stdinQueue k.children none := by
        apply attended.more _ (List.Subset.refl _)
        exact fun name inList => (added name).mpr (List.mem_cons_of_mem _ inList)
      apply Leaves.ok
      have asleep : Attended (RunQueue.sleepIn k wtTimer (some .sleep)) _ _ _ _ := longer.sleepIn awake ⟨_, (added _).mpr List.mem_cons_self, rfl⟩
      exact ⟨asleep.family.congr rfl rfl, asleep.awaited⟩
    · exact Leaves.error _

theorem Attended.expireLoop (attended : Attended k timers k.stdinQueue k.children none) (there : ∀ name ∈ names timers, state k name.2 ≠ .uninit) :
    Leaves Settled (RunQueue.expireLoop k timers) := by
  induction timers generalizing k with
  | nil => exact Leaves.ok ⟨attended.family.congr rfl rfl, attended.awaited⟩
  | cons timer rest ih =>
    unfold RunQueue.expireLoop
    split
    · have woken : Leaves (fun after => Attended after rest after.stdinQueue after.children none ∧
          ∀ name ∈ names rest, state after name.2 ≠ .uninit) (RunQueue.expire k timer) := by
        unfold RunQueue.expire
        split
        · exact Leaves.error _
        · intro after ran
          obtain ⟨-, same, -, awake, others⟩ := wakeupProc_spec ran
          obtain ⟨sched, rfl⟩ : ∃ sched, after = { k with sched } := ⟨_, same⟩
          refine ⟨attended_of_wakeup attended.family (there _ List.mem_cons_self) (fun other apart asleep => ?_) ran, fun name inRest => ?_⟩
          · apply (attended.awaited other asleep).keep
            · intro name inList own
              rcases List.mem_cons.mp inList with rfl | inRest
              · exact absurd own.symm apart
              · exact inRest
            · exact fun _ waits => waits
            · exact id
            · rfl
            · exact fun _ _ own dead => ⟨own, dead⟩
          · by_cases own : name.2 = timer.proc
            · rw [own, awake]
              simp
            · rw [(others _ own).1]
              exact there name (List.mem_cons_of_mem _ inRest)
      refine woken.bind ?_
      rintro after ⟨attended', there'⟩
      exact ih attended' there'
    · exact Leaves.ok ⟨attended.family.congr rfl rfl, attended.awaited⟩

theorem Attended.runTimers (attended : Settled k) (kept : Kept k) : Leaves Settled (RunQueue.runTimers k) := by
  unfold RunQueue.runTimers
  split
  · exact Leaves.ok attended
  · rename_i timer rest list
    split
    · have same : names ({ timer with expires := timer.expires - 1 } :: rest) = names k.timerList := by rw [list]; rfl
      apply Attended.expireLoop
      · apply attended.more _ (List.Subset.refl _)
        rw [same]
        exact List.Subset.refl _
      · rw [same]
        intro name listed gone
        have inside := (kept.linked.timers name listed).2
        have outside : k.frames name.2 = none := by
          apply kept.calls.outside
          · simp [show (k.sched.procs name.2).state = .uninit from gone]
          · simp [show (k.sched.procs name.2).state = .uninit from gone]
        cases outside.symm.trans inside
    · exact Leaves.error _

/-! ## Semaphores -/

theorem Kept.there (kept : Kept k) (inside : k.frames pid ≠ none) : state k pid ≠ .uninit := by
  intro gone
  have unused : (k.sched.procs pid).state = .uninit := gone
  apply inside
  apply kept.calls.outside <;> simp [unused]

theorem Attended.up (attended : Settled k) (kept : Kept k) (sem : Nat) : Leaves Settled (RunQueue.up k sem) := by
  unfold RunQueue.up
  split
  · rename_i empty
    apply Leaves.ok
    apply attended.setSem
    intro other _ waits
    rwa [empty] at waits
  · rename_i pid rest waiters
    split
    · obtain ⟨flags, inside⟩ := kept.linked.waiters sem pid (waiters ▸ List.mem_cons_self)
      have there : state k pid ≠ .uninit := kept.there (by simp [inside])
      intro after ran
      have same := (wakeupProc_spec ran).2.1
      have granted : Attended after k.timerList k.stdinQueue k.children none := by
        have family : Family (RunQueue.setFrame (RunQueue.setSem k sem ⟨(k.sems sem).value, rest⟩) pid (some (.down sem wtKsem))) k.children none :=
          attended.family.congr rfl rfl
        apply attended_of_wakeup family there _ ran
        intro other apart asleep
        have frames : (RunQueue.setFrame (RunQueue.setSem k sem ⟨(k.sems sem).value, rest⟩) pid (some (.down sem wtKsem))).frames other = k.frames other :=
          Function.update_of_ne apart _ _
        rw [frames]
        apply (attended.awaited other asleep).keep
        · exact fun name inList _ => inList
        · intro sem' waits
          by_cases own : sem' = sem
          · subst own
            rw [waiters] at waits
            simpa [RunQueue.setFrame, RunQueue.setSem] using (List.mem_cons.mp waits).resolve_left apart
          · simpa [RunQueue.setFrame, RunQueue.setSem, own] using waits
        · exact id
        · rfl
        · exact fun _ _ own dead => ⟨own, dead⟩
      rw [same] at granted ⊢
      exact granted
    · exact Leaves.error _

theorem Attended.down (attended : Settled k) (awake : state k (current k) = .runnable) (sem : Nat) : Settled (RunQueue.down k sem) := by
  unfold RunQueue.down
  split
  · exact attended.setSem fun _ _ waits => waits
  · have longer : Settled (RunQueue.setSem k sem { k.sems sem with waitQueue := (k.sems sem).waitQueue ++ [current k] }) :=
      attended.setSem fun _ _ waits => List.mem_append_left _ waits
    apply longer.sleepIn awake
    simp [Awaited, RunQueue.sleepIn, RunQueue.setFrame, RunQueue.setSem]

theorem Attended.downResume (attended : Settled k) (awake : state k (current k) = .runnable) (sem : Nat) (wakeupFlags : BitVec 32) :
    Leaves Settled (RunQueue.downResume k sem wakeupFlags) := by
  unfold RunQueue.downResume
  have running : state k (current k) ≠ .sleeping := by simp [awake]
  have shorter : Settled (RunQueue.setSem k sem { k.sems sem with waitQueue := (k.sems sem).waitQueue.erase (current k) }) := by
    apply attended.setSem
    intro other asleep waits
    have apart : other ≠ current k := by
      rintro rfl
      exact running asleep
    exact (List.mem_erase_of_ne apart).mpr waits
  simp only []
  split
  · exact Leaves.ok (shorter.setFrame running none)
  · exact Leaves.error _

/-! ## The keyboard -/

theorem Attended.devStdinRead (attended : Settled k) (awake : state k (current k) = .runnable) (left : Nat) : Settled (RunQueue.devStdinRead k left) := by
  have counted : Settled { k with unread := k.unread - min left k.unread } := ⟨attended.family.congr rfl rfl, attended.awaited⟩
  unfold RunQueue.devStdinRead
  simp only []
  split
  · have running : state k (current k) ≠ .sleeping := by simp [awake]
    exact counted.setFrame running none
  · have longer : Settled { k with unread := k.unread - min left k.unread, stdinQueue := k.stdinQueue ++ [current k] } := by
      have more := counted.more (List.Subset.refl _) (List.subset_append_left k.stdinQueue [current k])
      exact ⟨more.family.congr rfl rfl, more.awaited⟩
    apply longer.sleepIn awake
    simp [Awaited]

theorem Attended.stdinResume (attended : Settled k) (awake : state k (current k) = .runnable) (left : Nat) (wakeupFlags : BitVec 32) :
    Settled (RunQueue.stdinResume k left wakeupFlags) := by
  have running : state k (current k) ≠ .sleeping := by simp [awake]
  have shorter : Settled { k with stdinQueue := k.stdinQueue.erase (current k) } := by
    have less := attended.less running (fun name inList _ => inList) fun other waits apart => (List.mem_erase_of_ne apart).mpr waits
    exact ⟨less.family.congr rfl rfl, less.awaited⟩
  unfold RunQueue.stdinResume
  simp only []
  split
  · exact shorter.devStdinRead awake left
  · exact shorter.setFrame running none

theorem Attended.wakeupQueue {pids : List Nat} (attended : Attended k k.timerList pids k.children none) (there : ∀ pid ∈ pids, state k pid ≠ .uninit) :
    Leaves Settled (RunQueue.wakeupQueue k pids) := by
  induction pids generalizing k with
  | nil => exact Leaves.ok ⟨attended.family.congr rfl rfl, attended.awaited⟩
  | cons pid rest ih =>
    have woken : Leaves (fun after => Attended after after.timerList rest after.children none ∧ ∀ pid ∈ rest, state after pid ≠ .uninit)
        (wakeupProc (RunQueue.setFrame k pid (rung (k.frames pid))) pid) := by
      intro after ran
      obtain ⟨-, same, -, awake, others⟩ := wakeupProc_spec ran
      have timers : after.timerList = k.timerList := by rw [same]; rfl
      have kids : after.children = k.children := by rw [same]; rfl
      rw [timers, kids]
      have family : Family (RunQueue.setFrame k pid (rung (k.frames pid))) k.children none := attended.family.congr rfl rfl
      refine ⟨attended_of_wakeup family (there pid List.mem_cons_self) (fun other apart asleep => ?_) ran, fun other inRest => ?_⟩
      · have frames : (RunQueue.setFrame k pid (rung (k.frames pid))).frames other = k.frames other := Function.update_of_ne apart _ _
        rw [frames]
        apply (attended.awaited other asleep).keep
        · exact fun name inList _ => inList
        · exact fun _ waits => waits
        · exact fun waits => (List.mem_cons.mp waits).resolve_left apart
        · rfl
        · exact fun _ _ own dead => ⟨own, dead⟩
      · by_cases own : other = pid
        · rw [own, awake]
          simp
        · rw [(others _ own).1]
          exact there other (List.mem_cons_of_mem _ inRest)
    refine woken.bind ?_
    rintro after ⟨attended', there'⟩
    exact ih attended' there'

/-! ## The KPU -/

theorem Attended.kpuCall (attended : Settled k) (awake : state k (current k) = .runnable) (flags : BitVec 32) :
    Leaves Settled (wakeupProc (RunQueue.sleepIn k flags (some .kpu)) kpuTaskCtrlProc) := by
  have asleep : Settled (RunQueue.sleepIn k flags (some .kpu)) := attended.sleepIn awake trivial
  intro after ran
  have same := (wakeupProc_spec ran).2.1
  have woken := asleep.wake asleep.family.controller.1 ran
  rw [same] at woken ⊢
  exact woken

theorem Attended.kpuWrite (attended : Settled k) (awake : state k (current k) = .runnable) (first last : Bool) :
    Leaves Settled (RunQueue.kpuWrite k first last) := by
  simp only [RunQueue.kpuWrite]
  generalize (if first then current k else k.callerPid) = caller
  have marked : Settled { k with kpuioInit := true, kpuioCheck := false, callerPid := caller } := ⟨attended.family.congr rfl rfl, attended.awaited⟩
  split
  · exact Leaves.error _
  · split
    · exact marked.kpuCall awake wtKpuInit
    · exact Leaves.ok marked

theorem Attended.kpuRead (attended : Settled k) (awake : state k (current k) = .runnable) : Leaves Settled (RunQueue.kpuRead k) := by
  have marked : Settled { k with kpuioCheck := true, kpuioInit := false, callerPid := current k } := ⟨attended.family.congr rfl rfl, attended.awaited⟩
  exact marked.kpuCall awake wtKpu

theorem Attended.wakeCaller (attended : Settled k) : Leaves (fun after => Settled after ∧ current after = current k ∧
    ∀ pid, state k pid = .runnable → state after pid = .runnable) (RunQueue.wakeCaller k) := by
  unfold RunQueue.wakeCaller findProc
  split
  · rename_i pid found
    split at found
    · rename_i there
      cases found
      intro after ran
      obtain ⟨-, same, current, woken, others⟩ := wakeupProc_spec ran
      refine ⟨?_, current, fun other awake => ?_⟩
      · have settled := attended.wake there.2 ran
        rw [same] at settled ⊢
        exact settled
      · by_cases own : other = k.callerPid
        · rw [own, woken]
        · rw [(others other own).1, awake]
    · cases found
  · exact Leaves.error _

theorem Attended.kpuTaskCtrl (attended : Settled k) (awake : state k (current k) = .runnable) (controller : current k = kpuTaskCtrlProc) :
    Leaves Settled (RunQueue.kpuTaskCtrl k) := by
  have rests {k : Kernel} (attended : Settled k) (awake : state k (current k) = .runnable) (controller : current k = kpuTaskCtrlProc) (flags : BitVec 32) :
      Settled (RunQueue.sleepIn k flags none) := attended.sleepIn awake controller
  unfold RunQueue.kpuTaskCtrl
  split
  · split
    · refine attended.wakeCaller.bind ?_
      rintro after ⟨attended', same, runs⟩
      exact Leaves.ok (rests attended' (same ▸ runs _ awake) (same.trans controller) wtKpuInit)
    · exact Leaves.ok (rests attended awake controller wtKpuInit)
  · split
    · intro after ran
      exact ((rests attended awake controller wtKpu).wakeCaller after ran).1
    · exact Leaves.ok (rests attended awake controller wtKpu)

/-! ## Switches and interrupts -/

/-- The scheduler changes nothing that a wake-up depends on. -/
theorem Attended.sched {sched : Stride.Kernel} (attended : Settled k) (states : ∀ pid, (sched.procs pid).state = state k pid)
    (waits : ∀ pid, (sched.procs pid).waitState = waitState k pid) : Settled { k with sched } := by
  refine ⟨attended.family.same (fun pid => ?_) (fun pid dead => (states pid).symm.trans dead) rfl, fun pid asleep => ?_⟩
  · exact iff_of_eq (congrArg (· = ProcState.uninit) (states pid))
  · apply (attended.awaited pid ((states pid).symm.trans asleep)).keep
    · exact fun name inList _ => inList
    · exact fun _ waits => waits
    · exact id
    · exact waits pid
    · exact fun _ child own dead => ⟨own, (states child).symm.trans dead⟩

theorem states_schedule {sched after : Stride.Kernel} (queued : Stride.Queued sched) (ran : Stride.schedule sched = some after) (pid : Nat) :
    (after.procs pid).state = (sched.procs pid).state ∧ (after.procs pid).waitState = (sched.procs pid).waitState := by
  obtain ⟨after', ran', -, choice⟩ := queued.schedule
  cases ran.symm.trans ran'
  have states := queued.requeue.2
  rcases choice with ⟨-, rfl⟩ | ⟨next, -, -, rfl⟩
  · exact ⟨states pid, waits_requeue sched pid⟩
  · by_cases here : pid = next
    · simpa [Stride.taken, Stride.charge, Stride.setProc, here] using And.intro (states next) (waits_requeue sched next)
    · simpa [Stride.taken, Stride.charge, Stride.setProc, here] using And.intro (states pid) (waits_requeue sched pid)

theorem Attended.setProc {proc : Stride.Proc} (attended : Settled k) (same : proc.state = state k pid) (waits : proc.waitState = waitState k pid) :
    Settled { k with sched := Stride.setProc k.sched pid proc } := by
  apply attended.sched
  · intro other
    by_cases here : other = pid
    · simp [Stride.setProc, here, same]
    · simp [Stride.setProc, here, state]
  · intro other
    by_cases here : other = pid
    · simp [Stride.setProc, here, waits]
    · simp [Stride.setProc, here, waitState]

theorem Attended.tick (attended : Settled k) (kept : Kept k) : Leaves Settled (RunQueue.tick k) := by
  have expired : Leaves (fun k => Settled k ∧ Kept k) (RunQueue.runTimers k) := by
    intro after ran
    have fine := kept.runTimers
    rw [ran] at fine
    exact ⟨attended.runTimers kept after ran, fine⟩
  refine expired.bind ?_
  rintro k ⟨attended, kept⟩
  have ticked : Settled { k with sched := Stride.schedClassProcTick k.sched (current k) } := by
    unfold Stride.schedClassProcTick
    split
    · exact attended.setProc rfl rfl
    · exact attended.setProc rfl rfl
  have states (pid : Nat) : state { k with sched := Stride.schedClassProcTick k.sched (current k) } pid = state k pid := by
    unfold Stride.schedClassProcTick
    by_cases here : pid = current k
    · simp only [state, Stride.setProc, here, Function.update_self]
      split <;> rfl
    · simp only [state, Stride.setProc, Function.update_of_ne here]
  unfold RunQueue.inputWakeup
  split
  · apply ticked.wakeupQueue
    intro pid waits
    rw [states]
    obtain ⟨left, flags, inside⟩ := kept.linked.readers pid waits
    exact kept.there (by simp [inside])
  · exact Leaves.ok ticked

theorem Attended.resume (attended : Settled k) (kept : Kept k) (awake : state k (current k) = .runnable) (busy : current k ≠ idleproc) :
    Leaves Settled (RunQueue.resume k) := by
  have running : state k (current k) ≠ .sleeping := by simp [awake]
  unfold RunQueue.resume
  split
  · exact Leaves.ok attended
  · rename_i inside
    have fewer : Settled { k with timerList := delLoop (.stack (current k)) k.timerList } := by
      have less : Attended k (delLoop (.stack (current k)) k.timerList) k.stdinQueue k.children none := by
        apply attended.less running _ fun _ waits _ => waits
        intro name listed apart
        apply names_delLoop_others listed
        rw [(kept.linked.timers name listed).1]
        exact fun own => apart (TimerAddr.stack.inj own)
      exact ⟨less.family.congr rfl rfl, less.awaited⟩
    exact Leaves.ok (fewer.setFrame running none)
  · exact attended.downResume awake _ _
  · have back : Settled (RunQueue.setFrame k (current k) none) := attended.setFrame running none
    simp only []
    split
    · split
      · rename_i may
        exact back.doExit awake busy may
      · exact Leaves.error _
    · exact back.doWait kept.queued.idle awake _
  · exact Leaves.ok (attended.stdinResume awake _ _)
  · have marked : Settled { k with kpuioInit := false, kpuioCheck := false } := ⟨attended.family.congr rfl rfl, attended.awaited⟩
    exact Leaves.ok (marked.setFrame running none)

/-! ## Runs -/

theorem Attended.step {event : Event} (attended : Settled k) (kept : Kept k) : Leaves Settled (step k event) := by
  have idle : state k idleproc = .runnable := kept.queued.idle
  cases event with
  | fork pid =>
    rw [RunQueue.step]
    split
    · rename_i may
      exact attended.doFork idle (ready_iff.mp may.1).awake may.2
    · exact Leaves.ok attended
  | exit =>
    rw [RunQueue.step]
    split
    · rename_i may
      have ready := ready_iff.mp may.1
      exact attended.doExit ready.awake ready.busy may.2
    · exact Leaves.ok attended
  | wait pid =>
    rw [RunQueue.step]
    split
    · rename_i ready
      exact attended.doWait idle (ready_iff.mp ready).awake pid
    · exact Leaves.ok attended
  | kill pid =>
    rw [RunQueue.step]
    split
    · exact attended.doKill pid
    · exact Leaves.ok attended
  | sleep time =>
    rw [RunQueue.step]
    split
    · rename_i ready
      exact attended.doSleep (ready_iff.mp ready).awake time
    · exact Leaves.ok attended
  | up sem =>
    rw [RunQueue.step]
    split
    · exact attended.up kept sem
    · exact Leaves.ok attended
  | down sem =>
    rw [RunQueue.step]
    split
    · rename_i ready
      exact Leaves.ok (attended.down (ready_iff.mp ready).awake sem)
    · exact Leaves.ok attended
  | readStdin len =>
    rw [RunQueue.step]
    split
    · rename_i ready
      exact Leaves.ok (attended.devStdinRead (ready_iff.mp ready).awake len)
    · exact Leaves.ok attended
  | kpuWrite first last =>
    rw [RunQueue.step]
    split
    · rename_i ready
      exact attended.kpuWrite (ready_iff.mp ready).awake first last
    · exact Leaves.ok attended
  | kpuRead =>
    rw [RunQueue.step]
    split
    · rename_i ready
      exact attended.kpuRead (ready_iff.mp ready).awake
    · exact Leaves.ok attended
  | kpuTaskCtrl =>
    rw [RunQueue.step]
    split
    · rename_i may
      exact attended.kpuTaskCtrl (ready_iff.mp may.1).awake may.2
    · exact Leaves.ok attended
  | setPriority priority =>
    rw [RunQueue.step]
    split
    · exact Leaves.ok (attended.setProc rfl rfl)
    · exact Leaves.ok attended
  | resume =>
    rw [RunQueue.step]
    split
    · rename_i running
      simp only [Stride.running, Bool.and_eq_true, decide_eq_true_eq] at running
      exact attended.resume kept running.1 running.2
    · exact Leaves.ok attended
  | schedule =>
    rw [RunQueue.step]
    split
    · rename_i sched ran
      have states := states_schedule kept.queued ran
      exact Leaves.ok (attended.sched (fun pid => (states pid).1) fun pid => (states pid).2)
    · exact Leaves.error _
  | tick => exact attended.tick kept
  | key =>
    rw [RunQueue.step, devStdinWrite]
    split
    · exact Leaves.ok ⟨attended.family.congr rfl rfl, attended.awaited⟩
    · exact Leaves.ok attended

theorem boot_states (pid : Nat) : state boot pid = if pid ≤ 2 then .runnable else .uninit := by
  obtain ⟨first, ran⟩ : ∃ first, Stride.wakeupProc (Stride.setProc Stride.boot initproc Stride.allocProc) initproc = some first := ⟨_, rfl⟩
  obtain ⟨second, ran'⟩ : ∃ second, Stride.wakeupProc (Stride.setProc first kpuTaskCtrlProc Stride.allocProc) kpuTaskCtrlProc = some second := by
    refine Option.isSome_iff_exists.mp ?_
    simp [Stride.wakeupProc, Stride.setProc, Stride.allocProc]
  obtain ⟨-, awake, others⟩ := states_wakeupProc ran
  obtain ⟨-, awake', others'⟩ := states_wakeupProc ran'
  have made : Stride.step Stride.boot (.create initproc) = some first := ran
  have unused : (first.procs kpuTaskCtrlProc).state = .uninit := (others kpuTaskCtrlProc (by decide)).1
  have made' : Stride.step first (.create kpuTaskCtrlProc) = some second := by
    rw [Stride.step, if_pos unused, ran']
  have sched : boot.sched = second := by simp [boot, made, made']
  rw [state, sched]
  by_cases controller : pid = kpuTaskCtrlProc
  · subst controller
    simpa [kpuTaskCtrlProc] using awake'
  · rw [(others' pid controller).1]
    simp only [Stride.setProc, Function.update_of_ne controller]
    by_cases init : pid = initproc
    · subst init
      simpa [initproc] using awake
    · rw [(others pid init).1]
      simp only [Stride.setProc, Function.update_of_ne init, Stride.boot, Stride.allocProc]
      simp only [kpuTaskCtrlProc, initproc, Stride.idleproc] at *
      have only : pid = 0 ↔ pid ≤ 2 := by omega
      simp only [only]
      split <;> rfl

theorem boot_attended : Settled boot := by
  have kids (pid : Nat) : boot.children pid = if pid = idleproc then [kpuTaskCtrlProc, initproc] else [] := rfl
  have parent (pid : Nat) : boot.parent pid = idleproc := rfl
  refine ⟨⟨fun pid child => ?_, fun pid => ?_, fun pid _ gone => ?_, ?_, ?_⟩, fun pid asleep => ?_⟩
  · rw [kids, parent, boot_states]
    have among : child ∈ [kpuTaskCtrlProc, initproc] ↔ child ≠ idleproc ∧ child ≤ 2 := by
      simp only [List.mem_cons, List.not_mem_nil, or_false, kpuTaskCtrlProc, initproc, idleproc, Stride.idleproc]
      omega
    by_cases root : pid = idleproc
    · rw [if_pos root, among]
      by_cases low : child ≤ 2 <;> simp [low, root]
    · simp [root, Ne.symm root]
  · rw [kids]
    split
    · decide
    · exact List.nodup_nil
  · rw [kids, if_neg]
    rintro rfl
    simp [Alive, boot_states, idleproc, Stride.idleproc] at gone
  · simp [Alive, boot_states, initproc]
  · simp [Alive, boot_states, kpuTaskCtrlProc]
  · rw [boot_states] at asleep
    split at asleep <;> cases asleep

theorem settled_along (events : List Event) : Along next (fun k _ => Kept k ∧ Settled k) boot events := by
  have lawful : Along next (fun _ _ => True) boot events := along_of_forall (fun _ _ _ => trivial) boot
  refine along_of_invariant (fun k event settled _ => ⟨settled, fun after ran => ?_⟩) ⟨boot_kept, boot_attended⟩ lawful
  have ok : RunQueue.step k event = .ok after := by
    cases returned : RunQueue.step k event with
    | ok k => simpa [next, returned, Except.toOption] using ran
    | error fault => simp [next, returned, Except.toOption] at ran
  exact ⟨settled.1.next ran, settled.2.step settled.1 after ok⟩

/-- The process is the child of one that is there and has not exited, and is one of its children. -/
structure Parented (k : Kernel) (pid : Nat) : Prop where
  alive : Alive k (k.parent pid)
  once : (k.children (k.parent pid)).count pid = 1
  only : ∀ parent, pid ∈ k.children parent → parent = k.parent pid

/-- In every run nobody is orphaned: a process has one parent, which has not exited, and dead
processes have no children. -/
theorem nobody_orphaned (events : List Event) : Along next (fun k _ =>
    (∀ pid, pid ≠ idleproc → state k pid ≠ .uninit → Parented k pid) ∧
      ∀ pid, state k pid = .zombie → k.children pid = []) boot events := by
  apply (settled_along events).imp
  rintro k event ⟨kept, settled⟩
  have family := settled.family
  refine ⟨fun pid apart there => ?_, fun pid dead => ?_⟩
  · have listed : pid ∈ k.children (k.parent pid) := (family.listed _ _).mpr ⟨apart, there, rfl⟩
    refine ⟨?_, List.count_eq_one_of_mem (family.once _) listed, fun parent inList => ?_⟩
    · by_contra gone
      rw [family.childless _ (by simp) gone] at listed
      exact List.not_mem_nil listed
    · exact ((family.listed _ _).mp inList).2.2.symm
  · exact family.childless pid (by simp) fun lives => lives.2 dead

/-- In every run a process that sleeps has somebody to wake it: a timer, the queue of its semaphore or
of the keyboard, or a child that has yet to exit. Requests to the KPU have a protocol of their own. -/
theorem no_wakeup_lost (events : List Event) : Along next (fun k _ =>
    ∀ pid, state k pid = .sleeping → Awaited k k.timerList k.stdinQueue pid (k.frames pid)) boot events :=
  (settled_along events).imp fun _ _ settled => settled.2.awaited

end Ucore.RunQueue
