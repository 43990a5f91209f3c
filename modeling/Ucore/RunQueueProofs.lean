import Ucore.RunQueue
import Ucore.StrideProofs
import Ucore.TimerProofs

/-! The run queue over every order of calls, wake-ups, switches and interrupts. It holds the
processes that may run, each once, in every state; and nobody wakes a zombie but the KPU
controller, whose caller may have exited by the time that the controller looks at its request. -/
namespace Ucore.RunQueue
open Sched (Timer TimerAddr Semaphore ProcState wtChild wtKsem wtTimer wtKbd interruptible addLoop delLoop)
open TimerProofs (names)
open Runs

/-- The processes that may run are queued once each, but for the current one; nobody else is. -/
structure InOrder (sched : Stride.Kernel) : Prop where
  once : ∀ pid, Stride.Runnable sched pid → pid ≠ sched.current → (Stride.queue sched).count pid = 1
  only : ∀ pid ∈ Stride.queue sched, Stride.Runnable sched pid ∧ pid ≠ sched.current
  count : sched.rq.procNum = (Stride.queue sched).card

/-- No zombie is woken, and `idleproc` is picked from an empty queue only. -/
structure Outcome (k : Kernel) (event : Event) : Prop where
  inOrder : InOrder k.sched
  wakes : step k event ≠ .error .zombie
  picks : event = .schedule → ∀ after, Stride.schedule k.sched = some after → after.current = idleproc →
    Stride.queue (Stride.requeue k.sched) = 0

/-- A run ends where an assertion fails. -/
def next (k : Kernel) (event : Event) : Option Kernel := (step k event).toOption

/-- A request that the controller has yet to look at comes from a process that has exited. -/
def Stale (k : Kernel) : Prop :=
  (k.kpuioInit ∧ ¬ k.kpuioCheck ∧ 2 < k.callerPid ∨ k.kpuioCheck ∧ ¬ k.kpuioInit) ∧ state k k.callerPid = .zombie

def Meets (k : Kernel) (event : Event) : Prop :=
  event = .kpuTaskCtrl → ready k → current k = kpuTaskCtrlProc → ¬ Stale k

/-! ## Processes and their calls -/

/-- What is known of the processes and of the calls that they are inside of. -/
structure Calls (procs : Nat → Stride.Proc) (frames : Nat → Option Frame) : Prop where
  resting : ∀ pid, (procs pid).state ≠ .sleeping → (procs pid).waitState = 0
  inside : ∀ pid, frames pid ≠ none → (procs pid).state = .sleeping ∨ (procs pid).state = .runnable
  controller : (procs kpuTaskCtrlProc).state ≠ .zombie

/-- Whoever is on a list of waiting processes is inside the call that waits there. -/
structure Linked (frames : Nat → Option Frame) (timerList : List Timer) (sems : Nat → Semaphore) (stdinQueue : List Nat) : Prop where
  timers : ∀ name ∈ names timerList, name.1 = .stack name.2 ∧ frames name.2 = some .sleep
  timersApart : (timerList.map Timer.addr).Nodup
  waiters : ∀ sem, ∀ pid ∈ (sems sem).waitQueue, ∃ flags, frames pid = some (.down sem flags)
  waitersApart : ∀ sem, (sems sem).waitQueue.Nodup
  readers : ∀ pid ∈ stdinQueue, ∃ left flags, frames pid = some (.stdin left flags)
  readersApart : stdinQueue.Nodup

structure Kept (k : Kernel) : Prop where
  queued : Stride.Queued k.sched
  calls : Calls k.sched.procs k.frames
  linked : Linked k.frames k.timerList k.sems k.stdinQueue

variable {sched after : Stride.Kernel} {procs procs' : Nat → Stride.Proc} {frames : Nat → Option Frame} {timerList : List Timer}
  {sems : Nat → Semaphore} {stdinQueue : List Nat} {k : Kernel} {pid : Nat}

theorem Kept.inOrder (kept : Kept k) : InOrder k.sched := by
  have holds := kept.queued.holds
  refine ⟨fun pid runnable away => ?_, fun pid inside => (holds.mem pid).mp inside, holds.count⟩
  exact Multiset.count_eq_one_of_mem holds.distinct ((holds.mem pid).mpr ⟨runnable, away⟩)

theorem Calls.outside (calls : Calls procs frames) (asleep : (procs pid).state ≠ .sleeping) (stopped : (procs pid).state ≠ .runnable) :
    frames pid = none := by
  by_contra inside
  exact (calls.inside pid inside).elim asleep stopped

/-- A process inside a call is no zombie. -/
theorem Calls.alive (calls : Calls procs frames) (inside : frames pid ≠ none) : (procs pid).state ≠ .zombie := by
  rcases calls.inside pid inside with asleep | awake
  · simp [asleep]
  · simp [awake]

/-- A process that waits for something is no zombie. -/
theorem Calls.waiting (calls : Calls procs frames) (waits : (procs pid).waitState ≠ 0) : (procs pid).state ≠ .zombie := by
  intro dead
  apply waits
  apply calls.resting pid
  simp [dead]

theorem Calls.same (calls : Calls procs frames) (states : ∀ pid, (procs' pid).state = (procs pid).state)
    (waits : ∀ pid, (procs' pid).waitState = (procs pid).waitState) : Calls procs' frames := by
  refine ⟨fun pid awake => ?_, fun pid inside => ?_, ?_⟩
  · rw [states] at awake
    rw [waits, calls.resting pid awake]
  · rw [states]
    exact calls.inside pid inside
  · rw [states]
    exact calls.controller

/-- One process changes, and the call that it is inside of. -/
theorem Calls.update {proc : Stride.Proc} {frame : Option Frame} (calls : Calls procs frames)
    (resting : proc.state ≠ .sleeping → proc.waitState = 0) (inside : frame ≠ none → proc.state = .sleeping ∨ proc.state = .runnable)
    (controller : pid = kpuTaskCtrlProc → proc.state ≠ .zombie) :
    Calls (Function.update procs pid proc) (Function.update frames pid frame) := by
  refine ⟨fun other awake => ?_, fun other within => ?_, ?_⟩
  · by_cases same : other = pid
    · subst same
      rw [Function.update_self] at awake ⊢
      exact resting awake
    · rw [Function.update_of_ne same] at awake ⊢
      exact calls.resting other awake
  · by_cases same : other = pid
    · subst same
      rw [Function.update_self] at within ⊢
      exact inside within
    · rw [Function.update_of_ne same] at within ⊢
      exact calls.inside other within
  · by_cases same : kpuTaskCtrlProc = pid
    · rw [← same, Function.update_self]
      exact controller same.symm
    · rw [Function.update_of_ne same]
      exact calls.controller

theorem Calls.setProc {proc : Stride.Proc} (calls : Calls procs frames) (resting : proc.state ≠ .sleeping → proc.waitState = 0)
    (inside : frames pid ≠ none → proc.state = .sleeping ∨ proc.state = .runnable) (controller : pid = kpuTaskCtrlProc → proc.state ≠ .zombie) :
    Calls (Function.update procs pid proc) frames := by
  have updated : Calls (Function.update procs pid proc) (Function.update frames pid (frames pid)) :=
    calls.update resting inside controller
  rwa [Function.update_eq_self] at updated

theorem Calls.setFrame {frame : Option Frame} (calls : Calls procs frames)
    (inside : frame ≠ none → (procs pid).state = .sleeping ∨ (procs pid).state = .runnable) :
    Calls procs (Function.update frames pid frame) := by
  refine ⟨calls.resting, fun other within => ?_, calls.controller⟩
  by_cases same : other = pid
  · subst same
    rw [Function.update_self] at within
    exact inside within
  · rw [Function.update_of_ne same] at within
    exact calls.inside other within

theorem waits_strideEnqueue (sched : Stride.Kernel) (pid other : Nat) :
    ((Stride.strideEnqueue sched pid).procs other).waitState = (sched.procs other).waitState := by
  by_cases here : other = pid
  · simp [Stride.strideEnqueue, Stride.setProc, here]
  · simp [Stride.strideEnqueue, Stride.setProc, here]

/-- Waking a process that is no zombie. -/
theorem Calls.wakeup (calls : Calls sched.procs frames) (queued : Stride.Queued sched) (alive : (sched.procs pid).state ≠ .zombie) :
    ∃ after, Stride.wakeupProc sched pid = some after ∧ Stride.Queued after ∧ Calls after.procs frames := by
  obtain ⟨after, ran, queued'⟩ := queued.wakeup alive
  refine ⟨after, ran, queued', ?_⟩
  by_cases awake : (sched.procs pid).state = .runnable
  · have same : sched = after := by simpa [Stride.wakeupProc, awake] using ran
    rwa [← same]
  · have apart : pid ≠ Stride.idleproc := by
      rintro rfl
      exact awake queued.idle
    have woken : Calls (Stride.woken sched pid).procs frames :=
      calls.setProc (fun _ => rfl) (fun _ => .inr rfl) (fun _ dead => by cases dead)
    rw [Stride.wakeupProc_asleep alive awake apart, Option.some.injEq] at ran
    rw [← ran]
    split
    · exact woken.same (fun other => Stride.states_strideEnqueue _ _ other) (fun other => waits_strideEnqueue _ _ other)
    · exact woken

/-! ## Lists of waiting processes -/

/-- The process is on none of the lists. -/
structure Loose (pid : Nat) (timerList : List Timer) (sems : Nat → Semaphore) (stdinQueue : List Nat) : Prop where
  timers : ∀ name ∈ names timerList, name.2 ≠ pid
  waiters : ∀ sem, pid ∉ (sems sem).waitQueue
  readers : pid ∉ stdinQueue

theorem Linked.off_timers (linked : Linked frames timerList sems stdinQueue) (sleeps : frames pid ≠ some .sleep) :
    ∀ name ∈ names timerList, name.2 ≠ pid := by
  rintro name listed rfl
  exact sleeps (linked.timers name listed).2

theorem Linked.off_waiters {sem : Nat} (linked : Linked frames timerList sems stdinQueue)
    (downs : ∀ flags, frames pid ≠ some (.down sem flags)) : pid ∉ (sems sem).waitQueue := by
  intro waits
  obtain ⟨flags, inside⟩ := linked.waiters sem pid waits
  exact downs flags inside

theorem Linked.off_readers (linked : Linked frames timerList sems stdinQueue) (reads : ∀ left flags, frames pid ≠ some (.stdin left flags)) :
    pid ∉ stdinQueue := by
  intro waits
  obtain ⟨left, flags, inside⟩ := linked.readers pid waits
  exact reads left flags inside

/-- A process is on no list while it is in none of the calls that wait there. -/
theorem Linked.loose (linked : Linked frames timerList sems stdinQueue) (sleeps : frames pid ≠ some .sleep)
    (downs : ∀ sem flags, frames pid ≠ some (.down sem flags)) (reads : ∀ left flags, frames pid ≠ some (.stdin left flags)) :
    Loose pid timerList sems stdinQueue :=
  ⟨linked.off_timers sleeps, fun sem => linked.off_waiters (downs sem), linked.off_readers reads⟩

/-- A process in `down` waits for one semaphore only. -/
theorem Linked.loose_of_down {sem : Nat} {flags : BitVec 32} {semaphore : Semaphore} (linked : Linked frames timerList sems stdinQueue)
    (inside : frames pid = some (.down sem flags)) (off : pid ∉ semaphore.waitQueue) :
    Loose pid timerList (Function.update sems sem semaphore) stdinQueue := by
  refine ⟨linked.off_timers (by simp [inside]), fun other => ?_, linked.off_readers (by simp [inside])⟩
  by_cases same : other = sem
  · subst same
    rwa [Function.update_self]
  · rw [Function.update_of_ne same]
    apply linked.off_waiters
    simp [inside, Ne.symm same]

theorem Linked.loose_of_none (linked : Linked frames timerList sems stdinQueue) (outside : frames pid = none) :
    Loose pid timerList sems stdinQueue := by
  apply linked.loose <;> simp [outside]

/-- A process that is on no list may go into or out of any call. -/
theorem Linked.setFrame (linked : Linked frames timerList sems stdinQueue) (loose : Loose pid timerList sems stdinQueue) (frame : Option Frame) :
    Linked (Function.update frames pid frame) timerList sems stdinQueue := by
  refine ⟨fun name listed => ?_, linked.timersApart, fun sem other waits => ?_, linked.waitersApart, fun other waits => ?_, linked.readersApart⟩
  · rw [Function.update_of_ne (loose.timers name listed)]
    exact linked.timers name listed
  · rw [Function.update_of_ne (ne_of_mem_of_not_mem waits (loose.waiters sem))]
    exact linked.waiters sem other waits
  · rw [Function.update_of_ne (ne_of_mem_of_not_mem waits loose.readers)]
    exact linked.readers other waits

/-- A process goes to sleep with its timer. -/
theorem Linked.addTimer (linked : Linked frames timerList sems stdinQueue) (loose : Loose pid timerList sems stdinQueue) (time : Nat) :
    Linked (Function.update frames pid (some .sleep)) (addLoop ⟨.stack pid, pid, time⟩ timerList) sems stdinQueue := by
  have linked' := linked.setFrame loose (some .sleep)
  refine { linked' with timers := fun name listed => ?_, timersApart := ?_ }
  · rcases List.mem_cons.mp ((TimerProofs.names_addLoop _ _).mem_iff.mp listed) with rfl | listed
    · exact ⟨rfl, Function.update_self _ _ _⟩
    · exact linked'.timers name listed
  · rw [(TimerProofs.addrs_addLoop _ _).nodup_iff, List.nodup_cons]
    refine ⟨fun listed => ?_, linked.timersApart⟩
    obtain ⟨timer, inList, addr⟩ := List.mem_map.mp listed
    have named : (timer.addr, timer.proc) ∈ names timerList := List.mem_map_of_mem inList
    have own := (linked.timers _ named).1
    rw [addr] at own
    exact loose.timers _ named (TimerAddr.stack.inj own).symm

/-- A process that was asleep takes its timer off the list. -/
theorem Linked.delTimer (linked : Linked frames timerList sems stdinQueue) (inside : frames pid = some .sleep) :
    Linked (Function.update frames pid none) (delLoop (.stack pid) timerList) sems stdinQueue := by
  have left (name : TimerAddr × Nat) (listed : name ∈ names (delLoop (.stack pid) timerList)) : name ∈ names timerList ∧ name.2 ≠ pid := by
    have before := TimerProofs.names_delLoop _ _ listed
    refine ⟨before, fun own => ?_⟩
    obtain ⟨timer, inList, rfl⟩ := List.mem_map.mp listed
    have addr : timer.addr ∈ (delLoop (.stack pid) timerList).map Timer.addr := List.mem_map_of_mem inList
    rw [TimerProofs.addrs_delLoop, linked.timersApart.mem_erase_iff] at addr
    exact addr.1 ((linked.timers _ before).1.trans (congrArg TimerAddr.stack own))
  refine ⟨fun name listed => ?_, ?_, fun sem other waits => ?_, linked.waitersApart, fun other waits => ?_, linked.readersApart⟩
  · obtain ⟨before, apart⟩ := left name listed
    rw [Function.update_of_ne apart]
    exact linked.timers name before
  · rw [TimerProofs.addrs_delLoop]
    exact linked.timersApart.erase _
  · obtain ⟨flags, waiting⟩ := linked.waiters sem other waits
    refine ⟨flags, (Function.update_of_ne ?_ _ _).trans waiting⟩
    rintro rfl
    cases inside.symm.trans waiting
  · obtain ⟨left, flags, waiting⟩ := linked.readers other waits
    refine ⟨left, flags, (Function.update_of_ne ?_ _ _).trans waiting⟩
    rintro rfl
    cases inside.symm.trans waiting

/-- Timers go, and those that stay are for the same processes. -/
theorem Linked.expired {rest : List Timer} (linked : Linked frames timerList sems stdinQueue) (names' : names rest ⊆ names timerList)
    (apart : (rest.map Timer.addr).Nodup) : Linked frames rest sems stdinQueue :=
  { linked with timers := fun name listed => linked.timers name (names' listed), timersApart := apart }

/-- The queue of one semaphore changes. -/
theorem Linked.setSem {sem : Nat} {semaphore : Semaphore} (linked : Linked frames timerList sems stdinQueue)
    (waiters : ∀ pid ∈ semaphore.waitQueue, ∃ flags, frames pid = some (.down sem flags)) (apart : semaphore.waitQueue.Nodup) :
    Linked frames timerList (Function.update sems sem semaphore) stdinQueue := by
  refine { linked with waiters := fun other pid waits => ?_, waitersApart := fun other => ?_ }
  · by_cases same : other = sem
    · subst same
      rw [Function.update_self] at waits
      exact waiters pid waits
    · rw [Function.update_of_ne same] at waits
      exact linked.waiters other pid waits
  · by_cases same : other = sem
    · subst same
      rwa [Function.update_self]
    · rw [Function.update_of_ne same]
      exact linked.waitersApart other

/-! ## Operations -/

/-- No zombie has been woken; what has returned has this property. -/
def Fine (Holds : Kernel → Prop) : Except Fault Kernel → Prop
  | .ok k => Holds k
  | .error fault => fault ≠ .zombie

theorem Fine.bind {Between Holds : Kernel → Prop} {call : Except Fault Kernel} {rest : Kernel → Except Fault Kernel}
    (fine : Fine Between call) (behind : ∀ k, Between k → Fine Holds (rest k)) : Fine Holds (call >>= rest) := by
  cases call with
  | ok k => exact behind k fine
  | error fault => exact fine

theorem Kept.wakeup (kept : Kept k) (alive : state k pid ≠ .zombie) : Fine Kept (wakeupProc k pid) := by
  obtain ⟨after, ran, queued, calls⟩ := kept.calls.wakeup kept.queued alive
  rw [wakeupProc, ran]
  exact ⟨queued, calls, kept.linked⟩

/-- The current process marks itself asleep in a call that it is on no list for. -/
theorem Kept.sleepIn (kept : Kept k) (busy : current k ≠ idleproc) (frame : Option Frame) (waitState : BitVec 32)
    (linked : Linked (Function.update k.frames (current k) frame) k.timerList k.sems k.stdinQueue) :
    Kept (RunQueue.sleepIn k waitState frame) := by
  refine ⟨kept.queued.stop busy (by simp), ?_, linked⟩
  exact kept.calls.update (fun awake => absurd rfl awake) (fun _ => .inl rfl) (fun _ dead => by cases dead)

/-- The current process has no call to return to. -/
structure Ready (k : Kernel) : Prop where
  awake : state k (current k) = .runnable
  busy : current k ≠ idleproc
  outside : k.frames (current k) = none

theorem ready_iff : ready k = true ↔ Ready k := by
  simp only [ready, Stride.running, Bool.and_eq_true, decide_eq_true_eq, Option.isNone_iff_eq_none]
  constructor
  · rintro ⟨⟨awake, busy⟩, outside⟩
    exact ⟨awake, busy, outside⟩
  · rintro ⟨awake, busy, outside⟩
    exact ⟨⟨awake, busy⟩, outside⟩

/-- A new process is woken. -/
theorem Calls.create (calls : Calls sched.procs frames) (queued : Stride.Queued sched) (unused : (sched.procs pid).state = .uninit) :
    ∃ after, Stride.wakeupProc (Stride.setProc sched pid Stride.allocProc) pid = some after ∧ Stride.Queued after ∧ Calls after.procs frames := by
  have apart : pid ≠ sched.current := by
    rintro rfl
    exact queued.current unused
  have outside : frames pid = none := by
    apply calls.outside <;> simp [unused]
  have fresh : Calls (Stride.setProc sched pid Stride.allocProc).procs frames :=
    calls.setProc (fun _ => rfl) (fun inside => absurd outside inside) (fun _ dead => by cases dead)
  apply fresh.wakeup
  · exact queued.away (by simp [unused]) apart (by simp [Stride.allocProc])
  · simp [Stride.setProc, Stride.allocProc]

theorem Kept.doFork (kept : Kept k) (unused : state k pid = .uninit) : Fine Kept (RunQueue.doFork k pid) := by
  unfold RunQueue.doFork
  split
  · exact fun stop => by cases stop
  · obtain ⟨after, ran, queued, calls⟩ := kept.calls.create kept.queued unused
    rw [wakeupProc, ran]
    exact ⟨queued, calls, kept.linked⟩

theorem Kept.wakeInState (kept : Kept k) (pid : Nat) : Fine Kept (RunQueue.wakeInState k pid) := by
  unfold RunQueue.wakeInState
  split
  · rename_i waits
    apply kept.wakeup
    apply kept.calls.waiting
    rw [show (k.sched.procs pid).waitState = wtChild from waits]
    decide
  · exact kept

theorem Kept.handChildren (kept : Kept k) (pid : Nat) (children : List Nat) : Fine Kept (RunQueue.handChildren k pid children) := by
  induction children generalizing k with
  | nil => exact ⟨kept.queued, kept.calls, kept.linked⟩
  | cons child rest ih =>
    have handed : Kept { k with
        parent := Function.update k.parent child initproc
        children := Function.update k.children initproc (child :: k.children initproc) } := ⟨kept.queued, kept.calls, kept.linked⟩
    simp only [RunQueue.handChildren]
    split
    · exact (handed.wakeInState initproc).bind fun k kept => ih kept
    · exact ih handed

theorem Kept.doExit (kept : Kept k) (ready : Ready k) (may : mayExit k) : Fine Kept (RunQueue.doExit k) := by
  simp only [mayExit, Bool.and_eq_true, decide_eq_true_eq] at may
  have zombie : Kept { k with sched := Stride.zombify k.sched } := by
    refine ⟨kept.queued.stop ready.busy (by simp), ?_, kept.linked⟩
    refine kept.calls.setProc (fun _ => ?_) (fun inside => absurd ready.outside inside) (fun same => absurd same may.2)
    apply kept.calls.resting
    rw [show (k.sched.procs (current k)).state = .runnable from ready.awake]
    simp
  apply Fine.bind (zombie.wakeInState _)
  exact fun k kept => kept.handChildren _ _

theorem Kept.reap (kept : Kept k) (awake : state k (current k) = .runnable) (dead : state k pid = .zombie) : Kept (RunQueue.reap k pid) := by
  have stopped : (k.sched.procs pid).state = .zombie := dead
  have apart : pid ≠ current k := by
    rintro rfl
    cases awake.symm.trans dead
  refine ⟨kept.queued.away (by simp [stopped]) apart (by simp [Stride.allocProc]), ?_, kept.linked⟩
  have outside : k.frames pid = none := by
    apply kept.calls.outside <;> simp [stopped]
  exact kept.calls.setProc (fun _ => rfl) (fun inside => absurd outside inside) (fun _ dead => by cases dead)

theorem Kept.doWait (kept : Kept k) (ready : Ready k) (pid : Nat) : Fine Kept (RunQueue.doWait k pid) := by
  unfold RunQueue.doWait
  split
  · rename_i child found
    split
    · exact fun stop => by cases stop
    · have dead : state k child = .zombie := by simpa using List.find?_some found
      exact kept.reap ready.awake dead
  · split
    · exact kept
    · exact kept.sleepIn ready.busy _ _ (kept.linked.setFrame (kept.linked.loose_of_none ready.outside) _)

theorem Kept.doKill (kept : Kept k) (pid : Nat) : Fine Kept (RunQueue.doKill k pid) := by
  unfold RunQueue.doKill
  split
  · exact kept
  · split
    · exact kept
    · rename_i pid _ _
      have marked : Kept { k with exiting := Function.update k.exiting pid true } := ⟨kept.queued, kept.calls, kept.linked⟩
      by_cases waits : interruptible (k.sched.procs pid).waitState
      · have alive : state k pid ≠ .zombie := by
          apply kept.calls.waiting
          intro zero
          simp [interruptible, zero] at waits
        simpa [waitState, waits] using marked.wakeup alive
      · simpa [waitState, waits, Fine] using marked

/-! ## Timers -/

theorem Kept.doSleep (kept : Kept k) (ready : Ready k) (time : Nat) : Fine Kept (RunQueue.doSleep k time) := by
  unfold RunQueue.doSleep RunQueue.addTimer
  split
  · exact kept
  · split
    · have loose := kept.linked.loose_of_none ready.outside
      have asleep := kept.sleepIn ready.busy (some .sleep) wtTimer (kept.linked.setFrame loose _)
      exact ⟨asleep.queued, asleep.calls, kept.linked.addTimer loose time⟩
    · exact fun stop => by cases stop

theorem Kept.expire {timer : Timer} (kept : Kept k) (inside : k.frames timer.proc ≠ none) :
    Fine (fun after => Kept after ∧ after.frames = k.frames ∧ after.timerList = k.timerList) (RunQueue.expire k timer) := by
  unfold RunQueue.expire
  split
  · exact fun stop => by cases stop
  · obtain ⟨after, ran, queued, calls⟩ := kept.calls.wakeup kept.queued (kept.calls.alive inside)
    rw [wakeupProc, ran]
    exact ⟨⟨queued, calls, kept.linked⟩, rfl, rfl⟩

theorem Kept.expireLoop (kept : Kept k) (timers : List Timer) (listed : names timers ⊆ names k.timerList) (apart : (timers.map Timer.addr).Nodup) :
    Fine Kept (RunQueue.expireLoop k timers) := by
  induction timers generalizing k with
  | nil => exact ⟨kept.queued, kept.calls, kept.linked.expired (List.nil_subset _) List.nodup_nil⟩
  | cons timer rest ih =>
    unfold RunQueue.expireLoop
    split
    · have own := (kept.linked.timers _ (listed List.mem_cons_self)).2
      have inside : k.frames timer.proc ≠ none := by
        rw [own]
        simp
      apply (kept.expire inside).bind
      rintro after ⟨kept', -, same⟩
      apply ih kept'
      · rw [same]
        exact fun name inRest => listed (List.mem_cons_of_mem _ inRest)
      · exact (List.nodup_cons.mp apart).2
    · exact ⟨kept.queued, kept.calls, kept.linked.expired listed apart⟩

theorem Kept.runTimers (kept : Kept k) : Fine Kept (RunQueue.runTimers k) := by
  unfold RunQueue.runTimers
  split
  · exact kept
  · rename_i timer rest list
    split
    · apply kept.expireLoop
      · rw [list]
        exact List.Subset.refl _
      · have apart := kept.linked.timersApart
        rwa [list] at apart
    · exact fun stop => by cases stop

/-! ## Semaphores -/

theorem Kept.up (kept : Kept k) (sem : Nat) : Fine Kept (RunQueue.up k sem) := by
  unfold RunQueue.up
  split
  · refine ⟨kept.queued, kept.calls, kept.linked.setSem ?_ List.nodup_nil⟩
    exact fun _ waits => absurd waits List.not_mem_nil
  · rename_i pid rest waiters
    split
    · have listed : pid ∈ (k.sems sem).waitQueue := waiters ▸ List.mem_cons_self
      have apart : (pid :: rest).Nodup := waiters ▸ kept.linked.waitersApart sem
      obtain ⟨flags, inside⟩ := kept.linked.waiters sem pid listed
      have within : k.frames pid ≠ none := by simp [inside]
      have shorter : Linked k.frames k.timerList (Function.update k.sems sem ⟨(k.sems sem).value, rest⟩) k.stdinQueue := by
        apply kept.linked.setSem _ (List.nodup_cons.mp apart).2
        exact fun other waits => kept.linked.waiters sem other (waiters ▸ List.mem_cons_of_mem _ waits)
      have loose : Loose pid k.timerList (Function.update k.sems sem ⟨(k.sems sem).value, rest⟩) k.stdinQueue :=
        kept.linked.loose_of_down inside (List.nodup_cons.mp apart).1
      have granted : Kept (setFrame (setSem k sem ⟨(k.sems sem).value, rest⟩) pid (some (.down sem wtKsem))) :=
        ⟨kept.queued, kept.calls.setFrame fun _ => kept.calls.inside pid within, shorter.setFrame loose _⟩
      exact granted.wakeup (kept.calls.alive within)
    · exact fun stop => by cases stop

theorem Kept.down (kept : Kept k) (ready : Ready k) (sem : Nat) : Kept (RunQueue.down k sem) := by
  unfold RunQueue.down
  have loose := kept.linked.loose_of_none ready.outside
  split
  · refine ⟨kept.queued, kept.calls, kept.linked.setSem ?_ (kept.linked.waitersApart sem)⟩
    exact kept.linked.waiters sem
  · have asleep := kept.sleepIn ready.busy (some (.down sem Sched.wtInterrupted)) wtKsem (kept.linked.setFrame loose _)
    refine ⟨asleep.queued, asleep.calls, asleep.linked.setSem (fun pid waits => ?_) ?_⟩
    · rcases List.mem_append.mp waits with before | last
      · exact asleep.linked.waiters sem pid before
      · cases List.mem_singleton.mp last
        exact ⟨_, Function.update_self _ _ _⟩
    · rw [List.nodup_append]
      refine ⟨kept.linked.waitersApart sem, List.nodup_singleton _, fun other before last isLast same => ?_⟩
      cases List.mem_singleton.mp isLast
      exact loose.waiters sem (same ▸ before)

theorem Kept.downResume {sem : Nat} {flags : BitVec 32} (kept : Kept k) (inside : k.frames (current k) = some (.down sem flags)) (wakeupFlags : BitVec 32) :
    Fine Kept (RunQueue.downResume k sem wakeupFlags) := by
  unfold RunQueue.downResume
  have within : k.frames (current k) ≠ none := by simp [inside]
  have apart := kept.linked.waitersApart sem
  have shorter : Linked k.frames k.timerList (Function.update k.sems sem { k.sems sem with waitQueue := (k.sems sem).waitQueue.erase (current k) }) k.stdinQueue :=
    kept.linked.setSem (fun other waits => kept.linked.waiters sem other (List.mem_of_mem_erase waits)) (apart.erase _)
  have loose : Loose (current k) k.timerList (Function.update k.sems sem { k.sems sem with waitQueue := (k.sems sem).waitQueue.erase (current k) }) k.stdinQueue :=
    kept.linked.loose_of_down inside fun waits => (apart.mem_erase_iff.mp waits).1 rfl
  by_cases handed : wakeupFlags = wtKsem
  · have back : Kept (setFrame (setSem k sem { k.sems sem with waitQueue := (k.sems sem).waitQueue.erase (current k) }) (current k) none) :=
      ⟨kept.queued, kept.calls.setFrame fun inside => absurd rfl inside, shorter.setFrame loose none⟩
    rw [if_pos handed]
    exact back
  · rw [if_neg handed]
    exact fun stop => by cases stop

/-! ## The keyboard -/

/-- The reader is on no list, and may read on. -/
theorem Kept.devStdinRead (kept : Kept k) (busy : current k ≠ idleproc) (loose : Loose (current k) k.timerList k.sems k.stdinQueue)
    (left : Nat) : Kept (RunQueue.devStdinRead k left) := by
  unfold RunQueue.devStdinRead
  by_cases done : left = min left k.unread
  · have back : Kept (setFrame { k with unread := k.unread - min left k.unread } (current k) none) :=
      ⟨kept.queued, kept.calls.setFrame fun inside => absurd rfl inside, kept.linked.setFrame loose none⟩
    simpa only [← done, if_true] using back
  · have counted : Kept { k with unread := k.unread - min left k.unread } := ⟨kept.queued, kept.calls, kept.linked⟩
    have asleep := counted.sleepIn busy (some (.stdin (left - min left k.unread) Sched.wtInterrupted)) wtKbd (kept.linked.setFrame loose _)
    simp only [done, if_false]
    refine ⟨asleep.queued, asleep.calls, { asleep.linked with readers := fun pid waits => ?_, readersApart := ?_ }⟩
    · rcases List.mem_append.mp waits with before | last
      · exact asleep.linked.readers pid before
      · cases List.mem_singleton.mp last
        exact ⟨_, _, Function.update_self _ _ _⟩
    · change (k.stdinQueue ++ [current k]).Nodup
      rw [List.nodup_append]
      refine ⟨kept.linked.readersApart, List.nodup_singleton _, fun other before last isLast same => ?_⟩
      cases List.mem_singleton.mp isLast
      exact loose.readers (same ▸ before)

theorem Kept.stdinResume {left : Nat} {flags : BitVec 32} (kept : Kept k) (busy : current k ≠ idleproc)
    (inside : k.frames (current k) = some (.stdin left flags)) (wakeupFlags : BitVec 32) : Kept (RunQueue.stdinResume k left wakeupFlags) := by
  unfold RunQueue.stdinResume
  have apart := kept.linked.readersApart
  have gone : Kept { k with stdinQueue := k.stdinQueue.erase (current k) } :=
    ⟨kept.queued, kept.calls, { kept.linked with
      readers := fun pid waits => kept.linked.readers pid (List.mem_of_mem_erase waits), readersApart := apart.erase _ }⟩
  have loose : Loose (current k) k.timerList k.sems (k.stdinQueue.erase (current k)) := by
    refine ⟨kept.linked.off_timers (by simp [inside]), fun sem => ?_, fun waits => (apart.mem_erase_iff.mp waits).1 rfl⟩
    apply kept.linked.off_waiters
    simp [inside]
  by_cases rung : wakeupFlags = wtKbd
  · simpa [rung] using gone.devStdinRead busy loose left
  · have back : Kept (setFrame { k with stdinQueue := k.stdinQueue.erase (current k) } (current k) none) :=
      ⟨kept.queued, kept.calls.setFrame fun inside => absurd rfl inside, gone.linked.setFrame loose none⟩
    simpa [rung] using back

/-- A reader that is rung stays inside its call. -/
theorem Kept.ring (kept : Kept k) (waits : pid ∈ k.stdinQueue) : Kept (setFrame k pid (rung (k.frames pid))) := by
  obtain ⟨left, flags, inside⟩ := kept.linked.readers pid waits
  have rings : rung (k.frames pid) = some (.stdin left wtKbd) := by simp [rung, inside]
  have within : k.frames pid ≠ none := by simp [inside]
  refine ⟨kept.queued, kept.calls.setFrame fun _ => kept.calls.inside pid within, ?_⟩
  rw [rings]
  refine { kept.linked with timers := fun name listed => ?_, waiters := fun sem other among => ?_, readers := fun other reads => ?_ }
  · obtain ⟨own, asleep⟩ := kept.linked.timers name listed
    refine ⟨own, (Function.update_of_ne ?_ _ _).trans asleep⟩
    rintro rfl
    cases inside.symm.trans asleep
  · obtain ⟨flags', elsewhere⟩ := kept.linked.waiters sem other among
    refine ⟨flags', (Function.update_of_ne ?_ _ _).trans elsewhere⟩
    rintro rfl
    cases inside.symm.trans elsewhere
  · by_cases same : other = pid
    · subst same
      exact ⟨left, wtKbd, Function.update_self _ _ _⟩
    · obtain ⟨left', flags', reads⟩ := kept.linked.readers other reads
      exact ⟨left', flags', (Function.update_of_ne same _ _).trans reads⟩

theorem Kept.wakeupQueue (kept : Kept k) (pids : List Nat) (waiting : pids ⊆ k.stdinQueue) : Fine Kept (RunQueue.wakeupQueue k pids) := by
  induction pids generalizing k with
  | nil =>
    refine ⟨kept.queued, kept.calls, { kept.linked with readers := fun _ waits => absurd waits List.not_mem_nil, readersApart := List.nodup_nil }⟩
  | cons pid rest ih =>
    have waits : pid ∈ k.stdinQueue := waiting List.mem_cons_self
    obtain ⟨left, flags, inside⟩ := kept.linked.readers pid waits
    have alive : (k.sched.procs pid).state ≠ .zombie := kept.calls.alive (by simp [inside])
    have rung := kept.ring waits
    obtain ⟨after, ran, queued, calls⟩ := rung.calls.wakeup rung.queued alive
    have woken : wakeupProc (setFrame k pid (RunQueue.rung (k.frames pid))) pid =
        .ok { setFrame k pid (RunQueue.rung (k.frames pid)) with sched := after } := by
      rw [wakeupProc, ran]
    simp only [RunQueue.wakeupQueue, woken]
    exact ih ⟨queued, calls, rung.linked⟩ fun other inRest => waiting (List.mem_cons_of_mem _ inRest)

/-! ## The KPU -/

/-- The current process blocks in the device and wakes the controller. -/
theorem Kept.kpuCall (kept : Kept k) (ready : Ready k) (waitState : BitVec 32) :
    Fine Kept (wakeupProc (RunQueue.sleepIn k waitState (some .kpu)) kpuTaskCtrlProc) := by
  have asleep := kept.sleepIn ready.busy (some .kpu) waitState (kept.linked.setFrame (kept.linked.loose_of_none ready.outside) _)
  exact asleep.wakeup asleep.calls.controller

theorem Kept.kpuWrite (kept : Kept k) (ready : Ready k) (first last : Bool) : Fine Kept (RunQueue.kpuWrite k first last) := by
  simp only [RunQueue.kpuWrite]
  generalize (if first then current k else k.callerPid) = caller
  have marked : Kept { k with kpuioInit := true, kpuioCheck := false, callerPid := caller } := ⟨kept.queued, kept.calls, kept.linked⟩
  split
  · exact fun stop => by cases stop
  · split
    · exact marked.kpuCall ⟨ready.awake, ready.busy, ready.outside⟩ wtKpuInit
    · exact marked

theorem Kept.kpuRead (kept : Kept k) (ready : Ready k) : Fine Kept (RunQueue.kpuRead k) := by
  have marked : Kept { k with kpuioCheck := true, kpuioInit := false, callerPid := current k } := ⟨kept.queued, kept.calls, kept.linked⟩
  exact marked.kpuCall ⟨ready.awake, ready.busy, ready.outside⟩ wtKpu

theorem wakeupProc_current (ran : Stride.wakeupProc sched pid = some after) : after.current = sched.current := by
  unfold Stride.wakeupProc at ran
  split at ran
  · cases ran
  · cases ran
    rfl
  · cases ran
    split
    · unfold Stride.schedClassEnqueue
      split <;> rfl
    · rfl

/-- The controller wakes a caller that is no zombie, and stays what it is. -/
theorem Kept.wakeCaller (kept : Kept k) (alive : state k k.callerPid ≠ .zombie) :
    Fine (fun after => Kept after ∧ current after = current k ∧ after.frames = k.frames) (RunQueue.wakeCaller k) := by
  unfold RunQueue.wakeCaller findProc
  split
  · rename_i pid found
    split at found
    · cases found
      obtain ⟨after, ran, queued, calls⟩ := kept.calls.wakeup kept.queued alive
      rw [wakeupProc, ran]
      exact ⟨⟨queued, calls, kept.linked⟩, wakeupProc_current ran, rfl⟩
    · cases found
  · exact fun stop => by cases stop

theorem Kept.kpuTaskCtrl (kept : Kept k) (ready : Ready k) (fresh : ¬ Stale k) : Fine Kept (RunQueue.kpuTaskCtrl k) := by
  have rests {k : Kernel} (kept : Kept k) (busy : current k ≠ idleproc) (outside : k.frames (current k) = none) (waitState : BitVec 32) :
      Kept (RunQueue.sleepIn k waitState none) :=
    kept.sleepIn busy none waitState (kept.linked.setFrame (kept.linked.loose_of_none outside) none)
  unfold RunQueue.kpuTaskCtrl
  split
  · rename_i adds
    simp only [Bool.and_eq_true, Bool.not_eq_true'] at adds
    split
    · rename_i caller
      have alive : state k k.callerPid ≠ .zombie := fun dead => fresh ⟨.inl ⟨adds.1, by simp [adds.2], caller⟩, dead⟩
      apply (kept.wakeCaller alive).bind
      rintro after ⟨kept', same, frames⟩
      exact rests kept' (same ▸ ready.busy) (by rw [frames, same]; exact ready.outside) wtKpuInit
    · exact rests kept ready.busy ready.outside wtKpuInit
  · split
    · rename_i checks
      simp only [Bool.and_eq_true, Bool.not_eq_true'] at checks
      have asleep := rests kept ready.busy ready.outside wtKpu
      have alive : state (RunQueue.sleepIn k wtKpu none) k.callerPid ≠ .zombie := by
        by_cases own : k.callerPid = current k
        · simp [own, state, RunQueue.sleepIn, setFrame, Stride.sleepIn, Stride.setProc]
        · have dead : state k k.callerPid ≠ .zombie := fun dead => fresh ⟨.inr ⟨checks.1, by simp [checks.2]⟩, dead⟩
          simpa [state, RunQueue.sleepIn, setFrame, Stride.sleepIn, Stride.setProc, own] using dead
      have woken := asleep.wakeCaller alive
      cases ran : RunQueue.wakeCaller (RunQueue.sleepIn k wtKpu none) with
      | ok after =>
        rw [ran] at woken
        exact woken.1
      | error fault =>
        rw [ran] at woken
        exact woken
    · exact rests kept ready.busy ready.outside wtKpu

/-- A controller with a stale request wakes a zombie. -/
theorem Kept.kpuTaskCtrl_stale (kept : Kept k) (ready : Ready k) (stale : Stale k) : RunQueue.kpuTaskCtrl k = .error .zombie := by
  obtain ⟨request, dead⟩ := stale
  have positive : 0 < k.callerPid := by
    by_contra zero
    have idle : state k k.callerPid = .runnable := by
      rw [Nat.eq_zero_of_not_pos zero]
      exact kept.queued.idle
    cases idle.symm.trans dead
  have wakes {k : Kernel} (positive : 0 < k.callerPid) (dead : state k k.callerPid = .zombie) : RunQueue.wakeCaller k = .error .zombie := by
    have found : findProc k k.callerPid = some k.callerPid := by simp [findProc, positive, dead]
    have zombie : Stride.wakeupProc k.sched k.callerPid = none := by simp [Stride.wakeupProc, show (k.sched.procs k.callerPid).state = .zombie from dead]
    simp only [RunQueue.wakeCaller, found, wakeupProc, zombie]
  rcases request with ⟨init, check, caller⟩ | ⟨check, init⟩
  · simp [RunQueue.kpuTaskCtrl, init, check, caller, wakes positive dead, bind, Except.bind]
  · have own : k.callerPid ≠ current k := by
      intro same
      rw [same] at dead
      cases ready.awake.symm.trans dead
    have dead' : state (RunQueue.sleepIn k wtKpu none) k.callerPid = .zombie := by
      simpa [state, RunQueue.sleepIn, setFrame, Stride.sleepIn, Stride.setProc, own] using dead
    simpa [RunQueue.kpuTaskCtrl, init, check] using wakes (k := RunQueue.sleepIn k wtKpu none) positive dead'

/-! ## Switches and interrupts -/

theorem waits_requeue (sched : Stride.Kernel) (pid : Nat) : ((Stride.requeue sched).procs pid).waitState = (sched.procs pid).waitState := by
  have rested : ((Stride.rested sched).procs pid).waitState = (sched.procs pid).waitState := by
    by_cases here : pid = sched.current
    · simp [Stride.rested, Stride.setProc, here]
    · simp [Stride.rested, Stride.setProc, here]
  rcases Stride.requeue_cases sched with ⟨-, same⟩ | ⟨-, same⟩
  · rw [same, waits_strideEnqueue, rested]
  · rw [same, rested]

theorem Kept.schedule (kept : Kept k) : ∃ after, Stride.schedule k.sched = some after ∧ Kept { k with sched := after } ∧
    (after.current = idleproc → Stride.queue (Stride.requeue k.sched) = 0) := by
  obtain ⟨after, ran, queued, choice⟩ := kept.queued.schedule
  have states := kept.queued.requeue.2
  rcases choice with ⟨root, rfl⟩ | ⟨next, root, runnable, rfl⟩
  · exact ⟨_, ran, ⟨queued, kept.calls.same states (waits_requeue k.sched), kept.linked⟩, fun _ => SkewHeap.Heap.root_none.mp root⟩
  · refine ⟨_, ran, ⟨queued, kept.calls.same (fun pid => ?_) (fun pid => ?_), kept.linked⟩, fun idle => absurd idle runnable.2⟩
    · by_cases here : pid = next
      · simpa [Stride.taken, Stride.charge, Stride.setProc, here] using states next
      · simpa [Stride.taken, Stride.charge, Stride.setProc, here] using states pid
    · by_cases here : pid = next
      · simpa [Stride.taken, Stride.charge, Stride.setProc, here] using waits_requeue k.sched next
      · simpa [Stride.taken, Stride.charge, Stride.setProc, here] using waits_requeue k.sched pid

/-- A process changes nothing that its state or its calls depend on. -/
theorem Kept.setProc {proc : Stride.Proc} (kept : Kept k) (same : proc.state = (k.sched.procs pid).state)
    (waits : proc.waitState = (k.sched.procs pid).waitState) (rq : (k.sched.procs pid).rq → proc.rq) :
    Kept { k with sched := Stride.setProc k.sched pid proc } := by
  refine ⟨kept.queued.setProc same rq, kept.calls.same (fun other => ?_) (fun other => ?_), kept.linked⟩
  · by_cases here : other = pid <;> simp [Stride.setProc, here, same]
  · by_cases here : other = pid <;> simp [Stride.setProc, here, waits]

theorem Kept.tick (kept : Kept k) : Fine Kept (RunQueue.tick k) := by
  apply kept.runTimers.bind
  intro k kept
  have ticked : Kept { k with sched := Stride.schedClassProcTick k.sched (current k) } := by
    unfold Stride.schedClassProcTick
    split
    · exact kept.setProc rfl rfl id
    · exact kept.setProc rfl rfl id
  unfold RunQueue.inputWakeup
  split
  · exact ticked.wakeupQueue _ (List.Subset.refl _)
  · exact ticked

theorem Kept.resume (kept : Kept k) (awake : state k (current k) = .runnable) (busy : current k ≠ idleproc) : Fine Kept (RunQueue.resume k) := by
  unfold RunQueue.resume
  split
  · exact kept
  · rename_i inside
    exact ⟨kept.queued, kept.calls.setFrame fun inside => absurd rfl inside, kept.linked.delTimer inside⟩
  · rename_i inside
    exact kept.downResume inside _
  · rename_i pid inside
    have loose : Loose (current k) k.timerList k.sems k.stdinQueue := by
      apply kept.linked.loose <;> simp [inside]
    have back : Kept (setFrame k (current k) none) :=
      ⟨kept.queued, kept.calls.setFrame fun inside => absurd rfl inside, kept.linked.setFrame loose none⟩
    have ready : Ready (setFrame k (current k) none) := ⟨awake, busy, Function.update_self _ _ _⟩
    simp only []
    split
    · split
      · rename_i may
        exact back.doExit ready may
      · exact fun stop => by cases stop
    · exact back.doWait ready pid
  · rename_i inside
    exact kept.stdinResume busy inside _
  · rename_i inside
    have loose : Loose (current k) k.timerList k.sems k.stdinQueue := by
      apply kept.linked.loose <;> simp [inside]
    exact ⟨kept.queued, kept.calls.setFrame fun inside => absurd rfl inside, kept.linked.setFrame loose none⟩

/-! ## Runs -/

theorem Kept.step {event : Event} (kept : Kept k) (meets : Meets k event) : Fine Kept (step k event) := by
  cases event with
  | fork pid =>
    rw [RunQueue.step]
    split
    · rename_i may
      exact kept.doFork may.2
    · exact kept
  | exit =>
    rw [RunQueue.step]
    split
    · rename_i may
      exact kept.doExit (ready_iff.mp may.1) may.2
    · exact kept
  | wait pid =>
    rw [RunQueue.step]
    split
    · rename_i ready
      exact kept.doWait (ready_iff.mp ready) pid
    · exact kept
  | kill pid =>
    rw [RunQueue.step]
    split
    · exact kept.doKill pid
    · exact kept
  | sleep time =>
    rw [RunQueue.step]
    split
    · rename_i ready
      exact kept.doSleep (ready_iff.mp ready) time
    · exact kept
  | up sem =>
    rw [RunQueue.step]
    split
    · exact kept.up sem
    · exact kept
  | down sem =>
    rw [RunQueue.step]
    split
    · rename_i ready
      exact kept.down (ready_iff.mp ready) sem
    · exact kept
  | readStdin len =>
    rw [RunQueue.step]
    split
    · rename_i ready
      have ready := ready_iff.mp ready
      exact kept.devStdinRead ready.busy (kept.linked.loose_of_none ready.outside) len
    · exact kept
  | kpuWrite first last =>
    rw [RunQueue.step]
    split
    · rename_i ready
      exact kept.kpuWrite (ready_iff.mp ready) first last
    · exact kept
  | kpuRead =>
    rw [RunQueue.step]
    split
    · rename_i ready
      exact kept.kpuRead (ready_iff.mp ready)
    · exact kept
  | kpuTaskCtrl =>
    rw [RunQueue.step]
    split
    · rename_i may
      exact kept.kpuTaskCtrl (ready_iff.mp may.1) (meets rfl may.1 may.2)
    · exact kept
  | setPriority priority =>
    rw [RunQueue.step]
    split
    · exact kept.setProc rfl rfl id
    · exact kept
  | resume =>
    rw [RunQueue.step]
    split
    · rename_i running
      simp only [Stride.running, Bool.and_eq_true, decide_eq_true_eq] at running
      exact kept.resume running.1 running.2
    · exact kept
  | schedule =>
    obtain ⟨after, ran, kept', -⟩ := kept.schedule
    rw [RunQueue.step, ran]
    exact kept'
  | tick => exact kept.tick
  | key =>
    rw [RunQueue.step, devStdinWrite]
    split
    · exact ⟨kept.queued, kept.calls, kept.linked⟩
    · exact kept

/-- A step does as it should unless the controller has a stale request. -/
theorem Kept.outcome_iff (kept : Kept k) (event : Event) : Outcome k event ↔ Meets k event := by
  constructor
  · rintro outcome rfl ready controller stale
    apply outcome.wakes
    rw [RunQueue.step, if_pos ⟨ready, controller⟩]
    exact kept.kpuTaskCtrl_stale (ready_iff.mp ready) stale
  · intro meets
    have fine := kept.step meets
    refine ⟨kept.inOrder, fun zombie => ?_, fun _ after ran idle => ?_⟩
    · rw [zombie] at fine
      exact fine rfl
    · obtain ⟨after', ran', -, picks⟩ := kept.schedule
      cases ran.symm.trans ran'
      exact picks idle

theorem Kept.next {after : Kernel} {event : Event} (kept : Kept k) (ran : next k event = some after) : Kept after := by
  have ok : RunQueue.step k event = .ok after := by
    cases step : RunQueue.step k event with
    | ok k => simpa [RunQueue.next, step, Except.toOption] using ran
    | error fault => simp [RunQueue.next, step, Except.toOption] at ran
  have meets : Meets k event := by
    rintro rfl ready controller stale
    rw [RunQueue.step, if_pos ⟨ready, controller⟩, kept.kpuTaskCtrl_stale (ready_iff.mp ready) stale] at ok
    cases ok
  have fine := kept.step meets
  rwa [ok] at fine

theorem boot_kept : Kept boot := by
  have idle : Stride.Queued Stride.boot := Stride.boot_stepped.queued
  have alone : Calls Stride.boot.procs fun _ => none := by
    refine ⟨fun pid _ => ?_, fun _ inside => absurd rfl inside, ?_⟩
    · simp only [Stride.boot]
      split <;> rfl
    · decide
  have free : (Stride.boot.procs initproc).state = .uninit := rfl
  obtain ⟨first, ran, queued, calls⟩ := alone.create idle free
  have made : Stride.step Stride.boot (.create initproc) = some first := ran
  have unused : (first.procs kpuTaskCtrlProc).state = .uninit := by
    rw [Stride.wakeupProc_asleep (by decide) (by decide) (by decide), Option.some.injEq] at ran
    rw [← ran]
    rfl
  obtain ⟨second, ran', queued', calls'⟩ := calls.create queued unused
  have made' : Stride.step first (.create kpuTaskCtrlProc) = some second := by
    rw [Stride.step, if_pos unused, ran']
  have sched : boot.sched = second := by simp [boot, made, made']
  refine ⟨sched ▸ queued', sched ▸ calls', ?_⟩
  refine ⟨fun _ listed => ?_, List.nodup_nil, fun _ _ waits => ?_, fun _ => List.nodup_nil, fun _ waits => ?_, List.nodup_nil⟩
  · cases listed
  · cases waits
  · cases waits

/-- The run queue is in order in a whole run exactly when no process has exited while the
controller had yet to look at its request. -/
theorem run_queue_ordered_iff (events : List Event) : Along next Outcome boot events ↔ Along next Meets boot events :=
  along_iff_along (fun _ event kept => kept.outcome_iff event) (fun _ _ _ kept ran => kept.next ran) boot_kept

/-- A process writes the first of several blocks to the KPU and exits; another one kills the controller. -/
def abandoned : List Event :=
  [.schedule, .kpuTaskCtrl, .schedule, .fork 3, .wait 0, .schedule, .fork 4, .schedule, .kpuWrite true false, .exit,
    .schedule, .kill kpuTaskCtrlProc, .schedule]

theorem abandoned_reached : (run next boot abandoned).isSome := by decide +kernel

def abandonedState : Kernel := (run next boot abandoned).get abandoned_reached

/-- The controller wakes up to the request of a zombie. -/
theorem abandoned_request_wakes_zombie :
    ∃ k, run next boot abandoned = some k ∧ step k .kpuTaskCtrl = .error .zombie ∧
      ¬ Along next Outcome boot (abandoned ++ [.kpuTaskCtrl]) := by
  have reached : run next boot abandoned = some abandonedState := (Option.some_get abandoned_reached).symm
  have lawful : Along next (fun _ _ => True) boot abandoned := along_of_forall (fun _ _ _ => trivial) boot
  have kept : Kept abandonedState := run_keeps (fun _ _ _ kept _ ran => kept.next ran) boot_kept lawful reached
  have back : ready abandonedState = true := by decide +kernel
  have controller : current abandonedState = kpuTaskCtrlProc := by decide +kernel
  have request : abandonedState.kpuioInit = true ∧ abandonedState.kpuioCheck = false ∧ 2 < abandonedState.callerPid := by
    decide +kernel
  have dead : state abandonedState abandonedState.callerPid = .zombie := by decide +kernel
  have stale : Stale abandonedState := ⟨.inl ⟨request.1, by simp [request.2.1], request.2.2⟩, dead⟩
  have wakes : step abandonedState .kpuTaskCtrl = .error .zombie := by
    rw [RunQueue.step, if_pos ⟨back, controller⟩]
    exact kept.kpuTaskCtrl_stale (ready_iff.mp back) stale
  refine ⟨abandonedState, reached, wakes, fun along => ?_⟩
  have outcome : Outcome abandonedState .kpuTaskCtrl := along.reaches reached
  exact outcome.wakes wakes

end Ucore.RunQueue
