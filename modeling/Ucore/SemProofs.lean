import Ucore.Semaphores
import Ucore.TimerProofs

/-! The semaphores of the kernel are hand-over semaphores: every event of the
kernel is one operation on them, or none. -/
namespace Ucore.SemProofs
open Sched TimerProofs Semaphores

/-- Where a process stands: a `wait_t` that is still asleep waits, a woken one
has been handed a unit. -/
def place (k : Kernel) (pid : Nat) : Place Nat :=
  match k.frames pid with
  | some (.down sem _) => if (k.procs pid).state = .sleeping then .waiting sem else .granted sem
  | _ => .free

def abstract (k : Kernel) : State Nat Nat where
  value sem := (k.sems sem).value.toNat
  queue sem := (k.sems sem).waitQueue
  place := place k

def semOf : Frame → Option Nat
  | .sleep => none
  | .down sem _ => some sem

/-- The call that a process is inside of, without the flags of its `wait_t`. -/
def inCall (k : Kernel) (pid : Nat) : Option (Option Nat) := (k.frames pid).map semOf

/-- What the call of a process says of its state. -/
def CallOk (proc : Proc) : Option Frame → Prop
  | none => proc.state = .runnable
  | some .sleep => Wakeable proc ∧ proc.state ≠ .uninit
  | some (.down _ wakeupFlags) =>
    proc.state = .sleeping ∧ proc.waitState = wtKsem ∧ wakeupFlags = wtInterrupted ∨
      proc.state = .runnable ∧ proc.waitState = 0 ∧ wakeupFlags = wtKsem

structure Steady (k : Kernel) : Prop where
  calls : ∀ pid, CallOk (k.procs pid) (k.frames pid)
  sound : Sound (abstract k)
  range : ∀ sem, 0 ≤ (k.sems sem).value ∧ (k.sems sem).value < 2 ^ 31
  timers : ∃ now due, Timely ⟨k, now, due⟩
  owner : ∀ name ∈ names k.timerList, name.1 = .stack name.2
  stack : ∀ pid, listed k (.stack pid) → k.frames pid = some .sleep

theorem ready_iff {k : Kernel} (steady : Steady k) : ready k pid ↔ k.frames pid = none := by
  have call := steady.calls pid
  constructor
  · intro running
    simp only [ready, Bool.and_eq_true, Option.isNone_iff_eq_none] at running
    exact running.2
  · intro outside
    rw [outside] at call
    have running : (k.procs pid).state = .runnable := call
    simp [ready, outside, awake, running]

theorem place_free (outside : k.frames pid = none) : place k pid = .free := by
  simp [place, outside]

/-- What changes only the values of semaphores leaves the rest alone. -/
theorem Steady.setValue (steady : Steady k) (small : 0 ≤ value ∧ value < 2 ^ 31)
    (sound : Sound (abstract (setSem k sem { k.sems sem with value := value }))) :
    Steady (setSem k sem { k.sems sem with value := value }) := by
  obtain ⟨now, due, timely⟩ := steady.timers
  refine ⟨steady.calls, sound, fun other => ?_, ⟨now, due, timely.same rfl⟩, steady.owner, steady.stack⟩
  by_cases same : other = sem
  · simpa [setSem, same] using small
  · simpa [setSem, same] using steady.range other

theorem abstract_setValue (k : Kernel) (sem : Nat) (value : Int) :
    abstract (setSem k sem { k.sems sem with value := value }) =
      { abstract k with value := Function.update (abstract k).value sem value.toNat } := by
  ext other
  · by_cases same : other = sem <;> simp [abstract, setSem, same]
  · by_cases same : other = sem <;> simp [abstract, setSem, same]
  · rfl

theorem abstract_take (k : Kernel) (sem : Nat) :
    abstract (Sched.take k sem) = Semaphores.take (abstract k) sem := by
  rw [Sched.take, abstract_setValue]
  simp [Semaphores.take, abstract]

theorem Steady.take (steady : Steady k) (positive : 0 < (k.sems sem).value) :
    Steady (Sched.take k sem) := by
  have := steady.range sem
  refine steady.setValue ⟨by omega, by omega⟩ ?_
  have sound := steady.sound.take sem
  rwa [← abstract_take] at sound

/-- `down` that has to wait. -/
theorem Steady.wait (steady : Steady k) (running : ready k pid) (zero : (k.sems sem).value = 0) :
    Steady (waitCurrentSet k sem pid wtKsem) ∧
      abstract (waitCurrentSet k sem pid wtKsem) = Semaphores.wait (abstract k) pid sem ∧
      inCall (waitCurrentSet k sem pid wtKsem) = Function.update (inCall k) pid (some (some sem)) := by
  have outside : k.frames pid = none := (ready_iff steady).mp running
  have same : abstract (waitCurrentSet k sem pid wtKsem) = Semaphores.wait (abstract k) pid sem := by
    ext other
    · by_cases here : other = sem <;>
        simp [abstract, waitCurrentSet, Semaphores.wait, sleepIn, setFrame, setProc, setSem, here]
    · by_cases here : other = sem <;>
        simp [abstract, waitCurrentSet, Semaphores.wait, sleepIn, setFrame, setProc, setSem, here]
    · by_cases here : other = pid <;>
        simp [abstract, place, waitCurrentSet, Semaphores.wait, sleepIn, setFrame, setProc, setSem, here]
  refine ⟨?_, same, ?_⟩
  · obtain ⟨now, due, timely⟩ := steady.timers
    refine ⟨fun other => ?_, ?_, fun other => ?_, ⟨now, due, timely.same rfl⟩, steady.owner,
      fun other inList => ?_⟩
    · by_cases here : other = pid
      · simp [waitCurrentSet, sleepIn, setFrame, setProc, setSem, here, CallOk]
      · simpa [waitCurrentSet, sleepIn, setFrame, setProc, setSem, here] using steady.calls other
    · rw [same]
      exact steady.sound.wait (place_free outside) (by simp [abstract, zero])
    · by_cases here : other = sem
      · simpa [waitCurrentSet, sleepIn, setFrame, setProc, setSem, here] using steady.range sem
      · simpa [waitCurrentSet, sleepIn, setFrame, setProc, setSem, here] using steady.range other
    · have inside := steady.stack other inList
      have apart : other ≠ pid := by
        rintro rfl
        simp [outside] at inside
      simpa [waitCurrentSet, sleepIn, setFrame, setProc, setSem, apart] using inside
  · funext other
    by_cases here : other = pid <;>
      simp [inCall, waitCurrentSet, sleepIn, setFrame, setProc, setSem, here, semOf]

theorem Steady.down (steady : Steady k) (running : ready k pid) (sem : Nat) :
    Steady (Sched.down k pid sem) ∧
      abstract (Sched.down k pid sem) = Semaphores.down (abstract k) pid sem ∧
      inCall (Sched.down k pid sem) =
        if 0 < (k.sems sem).value then inCall k else Function.update (inCall k) pid (some (some sem)) := by
  have known : (abstract k).value sem = (k.sems sem).value.toNat := rfl
  by_cases positive : 0 < (k.sems sem).value
  · have positive' : 0 < (abstract k).value sem := by omega
    simp only [Sched.down, Semaphores.down, positive, positive', if_true]
    exact ⟨steady.take positive, abstract_take k sem, rfl⟩
  · have zero : ¬ 0 < (abstract k).value sem := by omega
    have := steady.range sem
    simp only [Sched.down, Semaphores.down, positive, zero, if_false]
    exact steady.wait running (by omega)

theorem up_free (waits : (k.sems sem).waitQueue = []) :
    Sched.up k sem =
      some (setSem k sem { k.sems sem with value := ((k.sems sem).value + 1).bmod (2 ^ 32) }) := by
  simp only [Sched.up, waits]

/-- The state of the kernel after `up` has woken a waiter. -/
def handOver (k : Kernel) (sem first : Nat) (rest : List Nat) : Kernel :=
  setProc (setFrame (setSem k sem { k.sems sem with waitQueue := rest }) first (some (.down sem wtKsem)))
    first { k.procs first with state := .runnable, waitState := 0 }

theorem up_waiter (waits : (k.sems sem).waitQueue = first :: rest)
    (asleep : (k.procs first).state = .sleeping) (waitState : (k.procs first).waitState = wtKsem) :
    Sched.up k sem = some (handOver k sem first rest) := by
  unfold Sched.up
  simp only [waits, waitState, if_true, wakeupWait, List.mem_cons_self, List.erase_cons_head,
    wakeupProc, setFrame, setSem, asleep, handOver, setProc]

theorem abstract_handOver (k : Kernel) (sem first : Nat) (rest : List Nat) :
    abstract (handOver k sem first rest) = grant (abstract k) sem first rest := by
  ext other
  · by_cases here : other = sem <;>
      simp [abstract, handOver, grant, setFrame, setProc, setSem, here]
  · by_cases here : other = sem <;>
      simp [abstract, handOver, grant, setFrame, setProc, setSem, here]
  · by_cases here : other = first <;>
      simp [abstract, place, handOver, grant, setFrame, setProc, setSem, here]

/-- A process that waits sleeps in its call. -/
theorem Steady.waiting (steady : Steady k) (waits : pid ∈ (k.sems sem).waitQueue) :
    k.frames pid = some (.down sem wtInterrupted) ∧ (k.procs pid).state = .sleeping ∧
      (k.procs pid).waitState = wtKsem := by
  have waiting : place k pid = .waiting sem := (steady.sound.queued sem pid).mp waits
  have call := steady.calls pid
  cases frame : k.frames pid with
  | none => simp [place, frame] at waiting
  | some inner =>
    cases inner with
    | sleep => simp [place, frame] at waiting
    | down other flags =>
      rw [frame] at call
      rcases call with ⟨asleep, waitState, rfl⟩ | ⟨running, -⟩
      · simp only [place, frame, asleep, if_true, Place.waiting.injEq] at waiting
        exact ⟨by rw [waiting], asleep, waitState⟩
      · simp [place, frame, running] at waiting

/-- `up` gives the unit to the longest waiter, and never fails. -/
theorem Steady.up (steady : Steady k)
    (fits : (k.sems sem).waitQueue = [] → (k.sems sem).value < 2 ^ 31 - 1) :
    ∃ after, Sched.up k sem = some after ∧ Steady after ∧
      abstract after = Semaphores.up (abstract k) sem ∧ inCall after = inCall k := by
  cases waits : (k.sems sem).waitQueue with
  | nil =>
    have known := steady.range sem
    have small := fits waits
    have whole : ((k.sems sem).value + 1).bmod (2 ^ 32) = (k.sems sem).value + 1 :=
      Int.bmod_eq_of_le (by omega) (by omega)
    have same : abstract (setSem k sem { k.sems sem with value := (k.sems sem).value + 1 }) =
        Semaphores.up (abstract k) sem := by
      have more : ((k.sems sem).value + 1).toNat = (k.sems sem).value.toNat + 1 := by omega
      have waits' : (abstract k).queue sem = [] := waits
      simp only [abstract_setValue, more, Semaphores.up, waits']
      rfl
    refine ⟨_, whole ▸ up_free waits, steady.setValue ⟨by omega, by omega⟩ ?_, same, rfl⟩
    rw [same]
    exact steady.sound.up sem
  | cons first rest =>
    obtain ⟨frame, asleep, waitState⟩ := steady.waiting (waits ▸ List.mem_cons_self)
    have same : abstract (handOver k sem first rest) = Semaphores.up (abstract k) sem := by
      have waits' : (abstract k).queue sem = first :: rest := waits
      simp only [abstract_handOver, Semaphores.up, waits']
    refine ⟨_, up_waiter waits asleep waitState, ⟨fun other => ?_, ?_, fun other => ?_, ?_, steady.owner,
      fun other inList => ?_⟩, same, funext fun other => ?_⟩
    · by_cases here : other = first
      · simp [handOver, setFrame, setProc, setSem, here, CallOk]
      · simpa [handOver, setFrame, setProc, setSem, here] using steady.calls other
    · rw [same]
      exact steady.sound.up sem
    · by_cases here : other = sem
      · simpa [handOver, setFrame, setProc, setSem, here] using steady.range sem
      · simpa [handOver, setFrame, setProc, setSem, here] using steady.range other
    · obtain ⟨now, due, timely⟩ := steady.timers
      exact ⟨now, due, timely.same rfl⟩
    · have inside := steady.stack other inList
      have apart : other ≠ first := by
        rintro rfl
        simp [frame] at inside
      simpa [handOver, setFrame, setProc, setSem, apart] using inside
    · by_cases here : other = first
      · simp [inCall, handOver, setFrame, setProc, setSem, here, frame, semOf]
      · simp [inCall, handOver, setFrame, setProc, setSem, here]

/-- A woken process returns from `down` with flags 0. -/
theorem Steady.downResume (steady : Steady k) (running : awake k pid)
    (inside : k.frames pid = some (.down sem flags)) :
    ∃ after, Sched.downResume k pid sem flags = some after ∧ Steady after ∧
      abstract after = Semaphores.resume (abstract k) pid ∧
      (abstract k).place pid = .granted sem ∧ inCall after = Function.update (inCall k) pid none := by
  have state : (k.procs pid).state = .runnable := by simpa [awake] using running
  have call := steady.calls pid
  rw [inside] at call
  obtain ⟨asleep, -⟩ | ⟨-, -, rfl⟩ := call
  · rw [state] at asleep
    cases asleep
  have woken : (abstract k).place pid = .granted sem := by simp [abstract, place, inside, state]
  have outside : pid ∉ (k.sems sem).waitQueue := fun waits => by
    obtain ⟨-, asleep, -⟩ := steady.waiting waits
    simp [state] at asleep
  have same : abstract (setFrame k pid none) = Semaphores.resume (abstract k) pid := by
    ext other
    · rfl
    · rfl
    · by_cases here : other = pid <;> simp [abstract, place, Semaphores.resume, setFrame, here]
  refine ⟨setFrame k pid none, ?_, ⟨fun other => ?_, ?_, steady.range, ?_, steady.owner,
    fun other inList => ?_⟩, same, woken, funext fun other => ?_⟩
  · simp [Sched.downResume, waitCurrentDel, outside]
  · by_cases here : other = pid
    · simp [setFrame, here, CallOk, state]
    · simpa [setFrame, here] using steady.calls other
  · rw [same]
    exact steady.sound.resume woken
  · obtain ⟨now, due, timely⟩ := steady.timers
    exact ⟨now, due, timely.same rfl⟩
  · have asleep := steady.stack other inList
    have apart : other ≠ pid := by
      rintro rfl
      simp [inside] at asleep
    simpa [setFrame, apart] using asleep
  · by_cases here : other = pid <;> simp [inCall, setFrame, here]

/-! ## The other events leave the semaphores alone -/

/-- Waking processes that are in no `down` leaves every unit where it is. -/
theorem Steady.wakes (steady : Steady k) (wakes : Wakes who k after)
    (apart : ∀ pid, who pid → (k.frames pid).bind semOf = none) :
    (∀ pid, CallOk (after.procs pid) (after.frames pid)) ∧ abstract after = abstract k ∧
      inCall after = inCall k := by
  refine ⟨fun pid => ?_, ?_, ?_⟩
  · have call := steady.calls pid
    rw [wakes.frames]
    rcases wakes.procs pid with ⟨state, waitState⟩ | ⟨woken, state, waitState⟩
    · cases frame : k.frames pid with
      | none => simpa [CallOk, frame, state] using call
      | some inner => cases inner <;> simpa [CallOk, Wakeable, frame, state, waitState] using call
    · have free := apart pid woken
      cases frame : k.frames pid with
      | none => simp [CallOk, state]
      | some inner =>
        cases inner with
        | sleep => simp [CallOk, Wakeable, state, waitState]
        | down sem flags => simp [frame, semOf] at free
  · ext pid
    · simp [abstract, wakes.sems]
    · simp [abstract, wakes.sems]
    · simp only [abstract, place, wakes.frames]
      rcases wakes.procs pid with ⟨state, -⟩ | ⟨woken, -⟩
      · rw [state]
      · have free := apart pid woken
        cases frame : k.frames pid with
        | none => rfl
        | some inner =>
          cases inner with
          | sleep => rfl
          | down sem flags => simp [frame, semOf] at free
  · funext pid
    simp [inCall, wakes.frames]

theorem Steady.kill (steady : Steady k) (pid : Nat) :
    ∃ after code, doKill k pid = some (after, code) ∧ Steady after ∧ abstract after = abstract k ∧
      inCall after = inCall k := by
  have call := steady.calls pid
  have alive : (k.procs pid).state ≠ .zombie := by
    cases frame : k.frames pid with
    | none =>
      rw [frame] at call
      simp [show (k.procs pid).state = .runnable from call]
    | some inner =>
      rw [frame] at call
      cases inner with
      | sleep => exact call.1.1
      | down sem flags => rcases call with ⟨state, -⟩ | ⟨state, -⟩ <;> simp [state]
  obtain ⟨after, code, killed, wakes⟩ := doKill_wakes alive
  have apart : ∀ other, other = pid ∧ interruptible (k.procs pid).waitState →
      (k.frames other).bind semOf = none := by
    rintro other ⟨rfl, signal⟩
    cases frame : k.frames other with
    | none => rfl
    | some inner =>
      rw [frame] at call
      cases inner with
      | sleep => rfl
      | down sem flags =>
        -- a process inside `down` is either woken already or in a sleep that no signal ends
        rcases call with ⟨-, waitState, -⟩ | ⟨-, waitState, -⟩ <;> rw [waitState] at signal <;>
          exact absurd signal (by decide)
  obtain ⟨calls, same, inCalls⟩ := steady.wakes wakes apart
  have range := steady.range
  obtain ⟨now, due, timely⟩ := steady.timers
  refine ⟨after, code, killed, ⟨calls, same ▸ steady.sound, ?_, ⟨now, due, timely.same wakes.timers⟩, ?_,
    fun other inList => ?_⟩, same, inCalls⟩
  · simpa only [wakes.sems] using range
  · simpa only [wakes.timers] using steady.owner
  · rw [wakes.frames]
    exact steady.stack other (by simpa only [listed, wakes.timers] using inList)

/-- Only a process inside `do_sleep` has a timer. -/
theorem Steady.sleeper (steady : Steady k) (inList : timer ∈ k.timerList) :
    k.frames timer.proc = some .sleep := by
  have name : (timer.addr, timer.proc) ∈ names k.timerList := List.mem_map_of_mem inList
  have addr : timer.addr = .stack timer.proc := steady.owner _ name
  exact steady.stack timer.proc (listed_iff.mpr (addr ▸ List.mem_map_of_mem inList))

theorem Steady.tick (steady : Steady k) :
    ∃ after, runTimerList k = some after ∧ Steady after ∧ abstract after = abstract k ∧
      inCall after = inCall k := by
  obtain ⟨now, due, timely⟩ := steady.timers
  have wakeable : ∀ timer ∈ k.timerList, Wakeable (k.procs timer.proc) := fun timer inList => by
    have call := steady.calls timer.proc
    rw [steady.sleeper inList] at call
    exact call.1
  obtain ⟨after, ran, timely', listed', -, wakes, kept⟩ := timely.tick wakeable
  have apart : ∀ pid, (∃ timer ∈ k.timerList, timer.proc = pid) → (k.frames pid).bind semOf = none := by
    rintro _ ⟨timer, inList, rfl⟩
    rw [steady.sleeper inList]
    rfl
  obtain ⟨calls, same, inCalls⟩ := steady.wakes wakes apart
  have sems : after.sems = k.sems := wakes.sems
  have frames : after.frames = k.frames := wakes.frames
  have range := steady.range
  refine ⟨after, ran, ⟨calls, ?_, ?_, ⟨_, due, timely'⟩, fun name inList => steady.owner name (kept inList),
    fun pid inList => ?_⟩, same, inCalls⟩
  · have sound := steady.sound
    rwa [← same] at sound
  · simpa only [sems] using range
  · rw [frames]
    exact steady.stack pid ((listed' _).mp inList).1

theorem Steady.doSleep (steady : Steady k) (running : ready k pid) (small : time < 2 ^ 32) :
    ∃ after, Sched.doSleep k pid time = some after ∧ Steady after ∧ abstract after = abstract k ∧
      inCall after = if time = 0 then inCall k else Function.update (inCall k) pid (some none) := by
  have outside : k.frames pid = none := (ready_iff steady).mp running
  by_cases zero : time = 0
  · exact ⟨k, by simp [Sched.doSleep, zero], steady, rfl, by simp [zero]⟩
  have fresh : ¬ listed k (.stack pid) := by
    intro inList
    have inside := outside.symm.trans (steady.stack pid inList)
    simp at inside
  obtain ⟨now, due, timely⟩ := steady.timers
  have asleep : Timely ⟨sleepIn k pid wtTimer .sleep, now, due⟩ := timely.same rfl
  obtain ⟨after, slept, timely', listed', rfl⟩ := asleep.add pid fresh (Nat.pos_of_ne_zero zero) small
  have same : abstract { sleepIn k pid wtTimer .sleep with
      timerList := addLoop ⟨.stack pid, pid, time⟩ k.timerList } = abstract k := by
    ext other
    · rfl
    · rfl
    · by_cases here : other = pid <;>
        simp [abstract, place, sleepIn, setFrame, setProc, here, outside]
  refine ⟨_, (if_neg zero).trans slept, ⟨fun other => ?_, ?_, steady.range,
    ⟨now, _, timely'⟩, fun name inList => ?_, fun other inList => ?_⟩, same, ?_⟩
  · by_cases here : other = pid
    · have signal : interruptible wtTimer := by decide
      simp [sleepIn, setFrame, setProc, here, CallOk, Wakeable, signal]
    · simpa [sleepIn, setFrame, setProc, here] using steady.calls other
  · exact same ▸ steady.sound
  · rcases List.mem_cons.mp ((names_addLoop _ _).mem_iff.mp inList) with rfl | inList
    · rfl
    · exact steady.owner name inList
  · by_cases here : other = pid
    · simp [sleepIn, setFrame, setProc, here]
    · have inList' : listed k (.stack other) := ((listed' _).mp inList).resolve_left (by simpa using here)
      simpa [sleepIn, setFrame, setProc, here] using steady.stack other inList'
  · funext other
    by_cases here : other = pid <;>
      simp [inCall, sleepIn, setFrame, setProc, here, zero, semOf]

/-- A sleeper deletes its timer, whether it was woken by it or by a signal. -/
theorem Steady.resumeSleep (steady : Steady k) (running : awake k pid) (inside : k.frames pid = some .sleep) :
    Steady (setFrame (delTimer k (.stack pid)) pid none) ∧
      abstract (setFrame (delTimer k (.stack pid)) pid none) = abstract k ∧
      inCall (setFrame (delTimer k (.stack pid)) pid none) = Function.update (inCall k) pid none := by
  have state : (k.procs pid).state = .runnable := by simpa [awake] using running
  obtain ⟨now, due, timely⟩ := steady.timers
  obtain ⟨timely', listed'⟩ := timely.delete (.stack pid)
  have same : abstract (setFrame (delTimer k (.stack pid)) pid none) = abstract k := by
    ext other
    · rfl
    · rfl
    · by_cases here : other = pid <;> simp [abstract, place, setFrame, delTimer, here, inside]
  refine ⟨⟨fun other => ?_, ?_, steady.range, ⟨now, due, timely'.same rfl⟩, fun name inList => ?_,
    fun other inList => ?_⟩, same, ?_⟩
  · by_cases here : other = pid
    · simp [setFrame, delTimer, here, CallOk, state]
    · simpa [setFrame, delTimer, here] using steady.calls other
  · exact same ▸ steady.sound
  · exact steady.owner name (names_delLoop _ _ inList)
  · obtain ⟨inList', apart⟩ := (listed' _).mp inList
    have here : other ≠ pid := by simpa using apart
    simpa [setFrame, delTimer, here] using steady.stack other inList'
  · funext other
    by_cases here : other = pid <;> simp [inCall, setFrame, delTimer, here]

/-! ## Every event is one operation, or none -/

/-- What an event does to the semaphores. -/
inductive Act where
  | up (pid sem : Nat)
  | take (pid sem : Nat)
  | wait (pid sem : Nat)
  | resume (pid sem : Nat)
  | none

def actOf (k : Kernel) : Event → Act
  | .up pid sem => if ready k pid then .up pid sem else .none
  | .down pid sem =>
    if ready k pid then if 0 < (k.sems sem).value then .take pid sem else .wait pid sem else .none
  | .tryDown pid sem => if ready k pid && 0 < (k.sems sem).value then .take pid sem else .none
  | .resume pid =>
    match k.frames pid with
    | some (.down sem _) => if awake k pid then .resume pid sem else .none
    | _ => .none
  | _ => .none

def perform (s : State Nat Nat) : Act → State Nat Nat
  | .up _ sem => Semaphores.up s sem
  | .take _ sem => Semaphores.take s sem
  | .wait pid sem => Semaphores.wait s pid sem
  | .resume pid _ => Semaphores.resume s pid
  | .none => s

/-- The states in which the operation can happen. -/
def Enabled (s : State Nat Nat) : Act → Prop
  | .up pid _ => s.place pid = .free
  | .take pid sem => s.place pid = .free ∧ 0 < s.value sem
  | .wait pid sem => s.place pid = .free ∧ s.value sem = 0
  | .resume pid sem => s.place pid = .granted sem
  | .none => True

/-- An `int` has room for the unit of an `up` that nobody waits for; timers come
from `do_sleep` only. -/
def Lawful (k : Kernel) : Event → Prop
  | .up _ sem => (k.sems sem).waitQueue = [] → (k.sems sem).value < 2 ^ 31 - 1
  | .sleep _ time => time < 2 ^ 32
  | .addTimer _ _ _ | .delTimer _ => False
  | _ => True

theorem Steady.free (steady : Steady k) (running : ready k pid) : (abstract k).place pid = .free :=
  place_free ((ready_iff steady).mp running)

/-- The calls that the processes are inside of after an event. -/
def callsAfter (k : Kernel) : Event → Nat → Option (Option Nat)
  | .down pid sem =>
    if ready k pid && (k.sems sem).value ≤ 0 then Function.update (inCall k) pid (some (some sem))
    else inCall k
  | .sleep pid time =>
    if ready k pid && time ≠ 0 then Function.update (inCall k) pid (some none) else inCall k
  | .resume pid => if awake k pid then Function.update (inCall k) pid none else inCall k
  | _ => inCall k

/-- What an event has to show: it does not fail, and is the operation it stands for. -/
def Refines (k : Kernel) (event : Event) : Prop :=
  ∃ after, Sched.step k event = some after ∧ Steady after ∧
    abstract after = perform (abstract k) (actOf k event) ∧ Enabled (abstract k) (actOf k event) ∧
    inCall after = callsAfter k event

theorem Steady.refines (action : Act) (act : actOf k event = action) (ran : Sched.step k event = some after)
    (steady : Steady after) (same : abstract after = perform (abstract k) action)
    (enabled : Enabled (abstract k) action) (calls : inCall after = callsAfter k event) : Refines k event :=
  ⟨after, ran, steady, act ▸ same, act ▸ enabled, calls⟩

theorem Steady.idle (steady : Steady k) (act : actOf k event = .none)
    (ran : Sched.step k event = some k) (calls : inCall k = callsAfter k event) : Refines k event :=
  Steady.refines .none act ran steady rfl trivial calls

theorem down_refines (steady : Steady k) (pid sem : Nat) : Refines k (.down pid sem) := by
  by_cases running : ready k pid
  · obtain ⟨steady', same, calls⟩ := steady.down running sem
    have known := steady.range sem
    have value : (abstract k).value sem = (k.sems sem).value.toNat := rfl
    have ran : Sched.step k (.down pid sem) = some (Sched.down k pid sem) := by
      simp [Sched.step, running]
    by_cases positive : 0 < (k.sems sem).value
    · have positive' : 0 < (abstract k).value sem := by omega
      rw [Semaphores.down, if_pos positive'] at same
      rw [if_pos positive] at calls
      exact Steady.refines (.take pid sem) (by simp [actOf, running, positive]) ran steady' same
        ⟨steady.free running, positive'⟩ (calls.trans (by simp [callsAfter, positive]))
    · rw [Semaphores.down, if_neg (by omega)] at same
      rw [if_neg positive] at calls
      exact Steady.refines (.wait pid sem) (by simp [actOf, running, positive]) ran steady' same
        ⟨steady.free running, by omega⟩ (calls.trans (by simp [callsAfter, running, not_lt.mp positive]))
  · exact steady.idle (by simp [actOf, running]) (by simp [Sched.step, running])
      (by simp [callsAfter, running])

theorem tryDown_refines (steady : Steady k) (pid sem : Nat) : Refines k (.tryDown pid sem) := by
  by_cases running : ready k pid
  · by_cases positive : 0 < (k.sems sem).value
    · have positive' : 0 < (abstract k).value sem := by simpa [abstract] using positive
      exact Steady.refines (.take pid sem) (by simp [actOf, running, positive])
        (by simp only [Sched.step, running, tryDown, positive, if_true]) (steady.take positive)
        (abstract_take k sem) ⟨steady.free running, positive'⟩ rfl
    · exact steady.idle (by simp [actOf, positive]) (by simp [Sched.step, tryDown, positive]) rfl
  · exact steady.idle (by simp [actOf, running]) (by simp [Sched.step, running]) rfl

theorem resume_refines (steady : Steady k) (pid : Nat) : Refines k (.resume pid) := by
  by_cases running : awake k pid
  · cases inside : k.frames pid with
    | none =>
      refine steady.idle (by simp [actOf, inside]) (by simp [Sched.step, Sched.resume, inside]) ?_
      have outside : inCall k pid = none := by simp [inCall, inside]
      simp only [callsAfter, running, if_true, ← outside, Function.update_eq_self]
    | some frame =>
      cases frame with
      | sleep =>
        obtain ⟨steady', same, calls⟩ := steady.resumeSleep running inside
        exact Steady.refines .none (by simp only [actOf, inside])
          (by simp only [Sched.step, running, if_true, Sched.resume, inside]) steady' same trivial
          (calls.trans (by simp [callsAfter, running]))
      | down sem flags =>
        obtain ⟨after, ran, steady', same, woken, calls⟩ := steady.downResume running inside
        exact Steady.refines (.resume pid sem) (by simp only [actOf, inside, running, if_true])
          (by simpa only [Sched.step, running, if_true, Sched.resume, inside] using ran) steady' same woken
          (calls.trans (by simp [callsAfter, running]))
  · refine steady.idle ?_ (by simp [Sched.step, running]) (by simp [callsAfter, running])
    cases inside : k.frames pid with
    | none => simp [actOf, inside]
    | some frame => cases frame <;> simp [actOf, inside, running]

theorem sleep_refines (steady : Steady k) (pid : Nat) (small : time < 2 ^ 32) :
    Refines k (.sleep pid time) := by
  by_cases running : ready k pid
  · obtain ⟨after, ran, steady', same, calls⟩ := steady.doSleep running small
    refine Steady.refines .none rfl (by simpa [Sched.step, running] using ran) steady' same trivial
      (calls.trans ?_)
    by_cases zero : time = 0 <;> simp [callsAfter, running, zero]
  · exact steady.idle rfl (by simp [Sched.step, running]) (by simp [callsAfter, running])

theorem Steady.step (steady : Steady k) (lawful : Lawful k event) : Refines k event := by
  cases event with
  | up pid sem =>
    by_cases running : ready k pid
    · obtain ⟨after, ran, steady', same, calls⟩ := steady.up lawful
      exact Steady.refines (.up pid sem) (by simp [actOf, running]) (by simpa [Sched.step, running] using ran)
        steady' same (steady.free running) calls
    · exact steady.idle (by simp [actOf, running]) (by simp [Sched.step, running]) rfl
  | down pid sem => exact down_refines steady pid sem
  | tryDown pid sem => exact tryDown_refines steady pid sem
  | sleep pid time => exact sleep_refines steady pid lawful
  | resume pid => exact resume_refines steady pid
  | kill pid =>
    obtain ⟨after, code, killed, steady', same, calls⟩ := steady.kill pid
    exact Steady.refines .none rfl (by simp [Sched.step, killed]) steady' same trivial calls
  | tick =>
    obtain ⟨after, ran, steady', same, calls⟩ := steady.tick
    exact Steady.refines .none rfl ran steady' same trivial calls
  | addTimer | delTimer => exact lawful.elim

theorem boot_steady (initial : Nat → Int) (range : ∀ sem, 0 ≤ initial sem ∧ initial sem < 2 ^ 31) :
    Steady (boot initial) where
  calls _ := rfl
  sound := ⟨fun _ _ => ⟨nofun, nofun⟩, fun _ => .nil, fun _ _ => rfl⟩
  range := range
  timers := ⟨0, fun _ => 0, .nil, nofun, nofun⟩
  owner := nofun
  stack := nofun

end Ucore.SemProofs
