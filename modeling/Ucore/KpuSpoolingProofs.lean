import Ucore.KpuSpooling
import Ucore.Runs

/-! The life of a KPU task, over every order of submissions, threads, status
checks, process creations and reapings. Ids repeat from the ninth task on, a
new task keeps whatever state bits its memory held, and a check finds tasks
through a pointer that may by then lead to another process; the runs that
avoid all three keep every promise. -/
namespace Ucore.KpuSpooling
open Runs

inductive Stage where
  | init
  | running
  | success
  deriving DecidableEq

def Stage.rank : Stage → Nat
  | .init => 0
  | .running => 1
  | .success => 2

/-- What the state bits of a task say. -/
def Task.stage (task : Task) : Option Stage :=
  if canRun task then some .init
  else if isRunning task && !isSuccess task then some .running
  else if isSuccess task && !isRunning task then some .success
  else none

def Phase.stage : Phase → Stage
  | .created | .waiting | .woken => .init
  | .running => .running
  | .sleeping | .returned => .success

/-- The thread has come through `down` and not yet through `up`. -/
def Phase.holds : Phase → Bool
  | .woken | .running | .sleeping => true
  | .created | .waiting | .returned => false

/-! ## The state bits -/

private theorem twoPow_ne_zero (i : Nat) (inside : i < 32) : BitVec.twoPow 32 i ≠ 0#32 := by
  intro zero
  have bit := congrArg (fun x => x.getLsbD i) zero
  simp [inside] at bit

private theorem isRunning_eq (task : Task) : isRunning task = task.sflag[1] := by
  have bit : runningStateBit = BitVec.twoPow 32 1 := by decide
  rw [isRunning, bit, BitVec.and_twoPow]
  split <;> simp_all [twoPow_ne_zero]

private theorem isSuccess_eq (task : Task) : isSuccess task = task.sflag[3] := by
  have bit : successStateBit = BitVec.twoPow 32 3 := by decide
  rw [isSuccess, bit, BitVec.and_twoPow]
  split <;> simp_all [twoPow_ne_zero]

private theorem canRun_eq (task : Task) :
    canRun task = (task.sflag[0] && !task.sflag[1] && !task.sflag[3]) := by
  have bit : initStateBit = BitVec.twoPow 32 0 := by decide
  have nonzero : (BitVec.twoPow 32 0 != 0#32) = true := by decide
  rw [canRun, isRunning_eq, isSuccess_eq, bit, BitVec.and_twoPow]
  rw [BitVec.getLsbD_eq_getElem (by decide)]
  cases task.sflag[0] <;> simp [nonzero]

/-- The three bits decide the stage. -/
theorem stage_eq_some (task : Task) (stage : Stage) :
    task.stage = some stage ↔ match stage with
      | .init => task.sflag[0] = true ∧ task.sflag[1] = false ∧ task.sflag[3] = false
      | .running => task.sflag[1] = true ∧ task.sflag[3] = false
      | .success => task.sflag[1] = false ∧ task.sflag[3] = true := by
  simp only [Task.stage, canRun_eq, isRunning_eq, isSuccess_eq]
  cases stage <;> cases task.sflag[0] <;> cases task.sflag[1] <;> cases task.sflag[3] <;> simp

theorem runTask_stage (ready : task.stage = some .init) :
    (runTask task).stage = some .running := by
  rw [stage_eq_some] at ready ⊢
  simpa [runTask, runningStateBit] using ready.2.2

theorem finished_stage (task : Task) : (taskSuccess (stopTask task)).stage = some .success := by
  rw [stage_eq_some]
  simp [taskSuccess, stopTask, runningStateBit, successStateBit]

/-- Memory with the other two bits clear gives a task that can run. -/
theorem taskInit_stage (calm : task.sflag[1] = false ∧ task.sflag[3] = false) :
    (taskInit task).stage = some .init := by
  rw [stage_eq_some]
  simpa [taskInit, initStateBit] using calm

/-! ## The system and what it promises -/

/-- The spooler with its history: which process submitted each task. A pid
taken again is another process. -/
structure Traced where
  spool : Spool
  born : Nat
  incarnation : Nat → Nat
  submitters : List Nat

/-- `junk` is what the new memory holds, `created` whether a thread was made. -/
inductive Event where
  | submit (pid input : Nat) (junk : BitVec 32) (created : Bool)
  | check (pid : Nat)
  | thread (k : Nat)
  | spawn (pid addr : Nat)
  | reap (pid junk : Nat)

/-- Only live processes submit, and a new process gets an unused pid and
`proc_struct`. -/
def step (traced : Traced) : Event → Option Traced
  | .submit pid input junk created =>
    if (findProc traced.spool pid).isNone then some traced
    else
      let (spool, id) := enlistTask traced.spool pid input junk
      (tryRunTask spool id created).map fun spool =>
        { traced with spool, submitters := traced.submitters ++ [traced.incarnation pid] }
  | .check pid => (tryCheckResult traced.spool pid).map fun _ => traced
  | .thread k => some { traced with spool := runKpu traced.spool k }
  | .spawn pid addr =>
    if taken traced.spool pid addr then some traced
    else
      some { traced with
        spool := spawn traced.spool pid addr
        born := traced.born + 1
        incarnation := Function.update traced.incarnation pid traced.born }
  | .reap pid junk => some { traced with spool := reap traced.spool pid junk }

/-- After `kpu_spooling_init`, with no other process and any memory. -/
def boot (procPid : Nat → Nat) : Traced where
  spool := kpuSpoolingInit ⟨0, [], 0, [], [], [], procPid⟩
  born := 1
  incarnation _ := 0
  submitters := []

/-- Task `k` is the last one the process that now has this pid submitted. -/
def Latest (traced : Traced) (pid k : Nat) : Prop :=
  traced.submitters[k]? = some (traced.incarnation pid) ∧
    ∀ j, k < j → traced.submitters[j]? ≠ some (traced.incarnation pid)

def LatestCompleted (traced : Traced) (pid : Nat) : Prop :=
  ∃ k task, Latest traced pid k ∧ traced.spool.kpuTasklist[k]? = some task ∧
    task.stage = some .success

/-- The events that keep clear of the three defects. -/
def Orderly (traced : Traced) : Event → Prop
  | .submit _ _ junk created => traced.spool.kpuTasklist.length < maxTasknum ∧
      (junk[1] = false ∧ junk[3] = false) ∧ created = true
  | .check pid => LatestCompleted traced pid ∨
      ∀ task ∈ traced.spool.kpuTasklist, ∀ proc, task.proc = some proc →
        traced.spool.procPid proc = pid → task.stage ≠ some .success
  | .thread _ | .spawn _ _ | .reap _ _ => True

structure LifeCycle (spool : Spool) : Prop where
  /-- Every added task has exactly one `run_kpu` thread. -/
  started : ∀ k < spool.kpuTasklist.length, (spool.threads.map Thread.task).count k = 1
  /-- Its state is INIT before that thread runs it, then RUNNING, then SUCCESS. -/
  staged : ∀ (k : Nat) (task : Task), spool.kpuTasklist[k]? = some task →
    ∃ thread ∈ spool.threads, thread.task = k ∧ task.stage = some thread.phase.stage
  exclusive : ∀ (j k : Nat) (a b : Task), spool.kpuTasklist[j]? = some a → spool.kpuTasklist[k]? = some b →
    isRunning a = true → isRunning b = true → j = k
  distinct : (spool.kpuTasklist.map Task.id).Nodup
  /-- The lookup by id in `try_run_task` finds the task the id was issued for. -/
  found : ∀ (k : Nat) (task : Task), spool.kpuTasklist[k]? = some task →
    (spool.kpuTasklist.findIdx? fun other => other.id = task.id) = some k

/-- No task is lost, goes back to an earlier state or leaves one out. -/
def Forward (before after : List Task) : Prop :=
  ∀ (k : Nat) (task : Task), before[k]? = some task →
    ∃ (task' : Task) (old new : Stage), after[k]? = some task' ∧ task.stage = some old ∧
      task'.stage = some new ∧ old.rank ≤ new.rank ∧ new.rank ≤ old.rank + 1

/-- What holds of every step. -/
structure Kept (before : Traced) (event : Event) (after : Traced) : Prop where
  lifeCycle : LifeCycle after.spool
  forward : Forward before.spool.kpuTasklist after.spool.kpuTasklist
  /-- A submission by a live process adds one task of its own, in INIT. -/
  submitted : ∀ pid input junk created, event = .submit pid input junk created →
    findProc before.spool pid ≠ none →
    ∃ task, after.spool.kpuTasklist = before.spool.kpuTasklist ++ [task] ∧
      task.input = input ∧ task.proc = findProc before.spool pid ∧ task.stage = some .init
  got : ∀ pid, event = .check pid → tryCheckResult before.spool pid = some .got →
    LatestCompleted before pid

/-! ## The semaphore -/

/-- A semaphore made with value one: free, or held by one thread, and exactly
the threads that wait for it are queued. -/
structure Sem (phases : List Phase) (value : Nat) (queue : List Nat) : Prop where
  queued : ∀ k, k ∈ queue ↔ phases[k]? = some .waiting
  once : queue.Nodup
  free : 0 < value → value = 1 ∧ queue = [] ∧ ∀ phase ∈ phases, phase.holds = false
  held : value = 0 → ∃ (holder : Nat) (phase : Phase), phases[holder]? = some phase ∧ phase.holds = true
  alone : ∀ (j k : Nat) (a b : Phase), phases[j]? = some a → phases[k]? = some b →
    a.holds = true → b.holds = true → j = k

variable {phases : List Phase} {old new phase : Phase} {value k first : Nat}
  {queue rest : List Nat}

private theorem Sem.none_holds (sem : Sem phases value queue) (positive : 0 < value)
    (at_k : phases[k]? = some phase) : phase.holds = false :=
  (sem.free positive).2.2 phase (List.mem_of_getElem? at_k)

private theorem set_getElem? (at_k : phases[k]? = some old) (new : Phase) (j : Nat) :
    (phases.set k new)[j]? = if k = j then some new else phases[j]? := by
  have inside := (List.getElem?_eq_some_iff.mp at_k).1
  rw [List.getElem?_set]
  split <;> simp_all

theorem Sem.create (sem : Sem phases value queue) : Sem (phases ++ [.created]) value queue where
  queued j := by
    rw [sem.queued j, List.getElem?_append]
    split
    · rfl
    · rename_i outside
      simp only [List.getElem?_eq_none (Nat.not_lt.mp outside), reduceCtorEq, false_iff]
      cases j - phases.length <;> simp
  once := sem.once
  free positive := by
    refine ⟨(sem.free positive).1, (sem.free positive).2.1, ?_⟩
    intro phase member
    rcases List.mem_append.mp member with old | new
    · exact (sem.free positive).2.2 phase old
    · cases List.mem_singleton.mp new
      rfl
  held zero := by
    obtain ⟨holder, phase, at_holder, holds⟩ := sem.held zero
    have inside := (List.getElem?_eq_some_iff.mp at_holder).1
    exact ⟨holder, phase, by rw [List.getElem?_append_left inside, at_holder], holds⟩
  alone := by
    have old : ∀ (j : Nat) (a : Phase), (phases ++ [.created])[j]? = some a → a.holds = true →
        phases[j]? = some a := by
      intro j a at_j holds
      rw [List.getElem?_append] at at_j
      split at at_j
      · exact at_j
      · cases offset : j - phases.length <;> simp_all [Phase.holds]
        subst at_j
        simp at holds
    intro j k a b at_j at_k holdsA holdsB
    exact sem.alone j k a b (old j a at_j holdsA) (old k b at_k holdsB) holdsA holdsB

/-- The thread that comes through `down` without waiting. -/
theorem Sem.enter (sem : Sem phases value queue) (at_k : phases[k]? = some .created)
    (positive : 0 < value) : Sem (phases.set k .running) (value - 1) queue where
  queued j := by
    rw [sem.queued j, set_getElem? at_k]
    split
    · subst j
      simp [at_k]
    · rfl
  once := sem.once
  free still := by
    have := (sem.free positive).1
    omega
  held _ := ⟨k, .running, by rw [set_getElem? at_k, if_pos rfl], rfl⟩
  alone := by
    have mine : ∀ (j : Nat) (a : Phase), (phases.set k .running)[j]? = some a →
        a.holds = true → j = k := by
      intro j a at_j holds
      rw [set_getElem? at_k] at at_j
      split at at_j
      · exact Eq.symm ‹k = j›
      · have none := sem.none_holds positive at_j
        simp [none] at holds
    intro i j a b at_i at_j holdsA holdsB
    rw [mine i a at_i holdsA, mine j b at_j holdsB]

/-- The thread that goes to sleep in `down`. -/
theorem Sem.wait (sem : Sem phases value queue) (at_k : phases[k]? = some .created)
    (zero : value = 0) : Sem (phases.set k .waiting) value (queue ++ [k]) where
  queued j := by
    rw [List.mem_append, sem.queued j, set_getElem? at_k, List.mem_singleton]
    split
    · simp [‹k = j›]
    · simp [Ne.symm ‹¬ k = j›]
  once := by
    rw [List.nodup_append]
    refine ⟨sem.once, by simp, ?_⟩
    rintro j queued _ member rfl
    cases List.mem_singleton.mp member
    rw [sem.queued, at_k] at queued
    cases queued
  free positive := by omega
  held _ := by
    obtain ⟨holder, phase, at_holder, holds⟩ := sem.held zero
    refine ⟨holder, phase, ?_, holds⟩
    rw [set_getElem? at_k]
    split
    · subst holder
      rw [at_k] at at_holder
      cases at_holder
      simp [Phase.holds] at holds
    · exact at_holder
  alone := by
    have old : ∀ (j : Nat) (a : Phase), (phases.set k .waiting)[j]? = some a → a.holds = true →
        phases[j]? = some a := by
      intro j a at_j holds
      rw [set_getElem? at_k] at at_j
      split at at_j
      · cases at_j
        simp [Phase.holds] at holds
      · exact at_j
    intro i j a b at_i at_j holdsA holdsB
    exact sem.alone i j a b (old i a at_i holdsA) (old j b at_j holdsB) holdsA holdsB

/-- A step of the holder inside the critical section. -/
theorem Sem.stay (sem : Sem phases value queue) (at_k : phases[k]? = some old)
    (before : old.holds = true) (after : new.holds = true) :
    Sem (phases.set k new) value queue where
  queued j := by
    rw [sem.queued j, set_getElem? at_k]
    split
    · subst j
      rw [at_k]
      cases old <;> cases new <;> simp_all [Phase.holds]
    · rfl
  once := sem.once
  free positive := by
    have none := sem.none_holds positive at_k
    simp [none] at before
  held _ := ⟨k, new, by rw [set_getElem? at_k, if_pos rfl], after⟩
  alone := by
    have same : ∀ (j : Nat) (a : Phase), (phases.set k new)[j]? = some a → a.holds = true →
        j = k := by
      intro j a at_j holds
      rw [set_getElem? at_k] at at_j
      split at at_j
      · exact Eq.symm ‹k = j›
      · exact sem.alone j k a old at_j at_k holds before
    intro i j a b at_i at_j holdsA holdsB
    rw [same i a at_i holdsA, same j b at_j holdsB]

/-- `up` with nobody waiting. -/
theorem Sem.leave (sem : Sem phases value []) (at_k : phases[k]? = some .sleeping) :
    Sem (phases.set k .returned) (value + 1) [] := by
  have zero : value = 0 := by
    rcases Nat.eq_zero_or_pos value with zero | positive
    · exact zero
    · have none := sem.none_holds positive at_k
      simp [Phase.holds] at none
  have none : ∀ phase ∈ phases.set k .returned, phase.holds = false := by
    intro phase member
    obtain ⟨j, at_j⟩ := List.mem_iff_getElem?.mp member
    rw [set_getElem? at_k] at at_j
    split at at_j
    · cases at_j
      rfl
    · cases holds : phase.holds with
      | false => rfl
      | true => exact absurd (sem.alone j k _ _ at_j at_k holds rfl) (Ne.symm ‹¬ k = j›)
  refine ⟨?_, List.nodup_nil, fun _ => ⟨by omega, rfl, none⟩, by omega, ?_⟩
  · intro j
    rw [sem.queued j, set_getElem? at_k]
    split
    · subst j
      simp [at_k]
    · rfl
  · intro i j a b at_i _ holdsA _
    simp [none a (List.mem_of_getElem? at_i)] at holdsA

/-- `up` hands the semaphore to the first thread that waits. -/
theorem Sem.handover (sem : Sem phases value (first :: rest))
    (at_k : phases[k]? = some .sleeping) :
    Sem ((phases.set k .returned).set first .woken) value rest := by
  have waits := (sem.queued first).mp (by simp)
  have apart : k ≠ first := by
    rintro rfl
    rw [at_k] at waits
    cases waits
  have at_first : (phases.set k .returned)[first]? = some .waiting := by
    rw [set_getElem? at_k, if_neg apart, waits]
  have lookup (j : Nat) : ((phases.set k .returned).set first .woken)[j]? =
      if first = j then some .woken else if k = j then some .returned else phases[j]? := by
    rw [set_getElem? at_first, set_getElem? at_k]
  have mine : ∀ (j : Nat) (a : Phase),
      ((phases.set k .returned).set first .woken)[j]? = some a → a.holds = true → j = first := by
    intro j a at_j holds
    rw [lookup] at at_j
    split at at_j
    · exact Eq.symm ‹first = j›
    · split at at_j
      · cases at_j
        simp [Phase.holds] at holds
      · exact absurd (sem.alone j k _ _ at_j at_k holds rfl) (Ne.symm ‹¬ k = j›)
  have fresh := List.nodup_cons.mp sem.once
  refine ⟨?_, fresh.2, ?_, fun _ => ⟨first, .woken, by rw [lookup, if_pos rfl], rfl⟩, ?_⟩
  · intro j
    have queued := sem.queued j
    rw [lookup]
    split
    · subst j
      simp [fresh.1]
    · rw [List.mem_cons] at queued
      split
      · subst j
        simp_all
      · simp_all
        tauto
  · intro positive
    have empty := (sem.free positive).2.1
    cases empty
  · intro i j a b at_i at_j holdsA holdsB
    rw [mine i a at_i holdsA, mine j b at_j holdsB]

/-! ## The invariant -/

/-- Thread `k` runs task `k`, whose id is the one `alloc_id` gave it. -/
structure Inv (spool : Spool) : Prop where
  own : spool.threads.map Thread.task = List.range spool.kpuTasklist.length
  few : spool.kpuTasklist.length ≤ maxTasknum
  ids : spool.kpuTasklist.map Task.id = (List.range spool.kpuTasklist.length).map allocId
  next : spool.maxid = spool.kpuTasklist.length % maxTasknum
  owned : ∀ task ∈ spool.kpuTasklist, task.proc ≠ none
  staged : ∀ (k : Nat) (task : Task) (phase : Phase), spool.kpuTasklist[k]? = some task →
    (spool.threads.map Thread.phase)[k]? = some phase → task.stage = some phase.stage
  sem : Sem (spool.threads.map Thread.phase) spool.semValue spool.semQueue

variable {spool : Spool} {update : Task → Task} {task : Task} {stage : Stage}

private theorem allocId_inj (first : i < maxTasknum) (second : j < maxTasknum)
    (same : allocId i = allocId j) : i = j := by
  simp only [allocId, maxTasknum] at *
  omega

theorem Inv.length (inv : Inv spool) : spool.threads.length = spool.kpuTasklist.length := by
  have lengths := congrArg List.length inv.own
  simpa using lengths

theorem Inv.own_task (inv : Inv spool) (threaded : spool.threads[k]? = some thread) :
    thread.task = k := by
  have inside := (List.getElem?_eq_some_iff.mp threaded).1
  rw [inv.length] at inside
  have at_k := congrArg (fun l : List Nat => l[k]?) inv.own
  simpa [threaded, List.getElem?_range inside] using at_k

/-- Every task has its thread. -/
theorem Inv.phase_of (inv : Inv spool) (listed : spool.kpuTasklist[k]? = some task) :
    ∃ thread : Thread, spool.threads[k]? = some thread ∧ thread.task = k ∧
      task.stage = some thread.phase.stage := by
  have inside := (List.getElem?_eq_some_iff.mp listed).1
  have threaded := List.getElem?_eq_getElem (inv.length ▸ inside : k < spool.threads.length)
  exact ⟨_, threaded, inv.own_task threaded, inv.staged k task _ listed (by simp [threaded])⟩

theorem Inv.distinct (inv : Inv spool) : (spool.kpuTasklist.map Task.id).Nodup := by
  rw [inv.ids]
  refine List.Nodup.map_on ?_ List.nodup_range
  intro i first j second
  have few := inv.few
  exact allocId_inj (Nat.lt_of_lt_of_le (List.mem_range.mp first) few)
    (Nat.lt_of_lt_of_le (List.mem_range.mp second) few)

/-- An id is found at the place of the task it was given to. -/
theorem Inv.find (inv : Inv spool) (listed : spool.kpuTasklist[k]? = some task) :
    (spool.kpuTasklist.findIdx? fun other => other.id = task.id) = some k := by
  obtain ⟨inside, rfl⟩ := List.getElem?_eq_some_iff.mp listed
  rw [List.findIdx?_eq_some_iff_getElem]
  refine ⟨inside, by simp, ?_⟩
  intro j below same
  have apart := List.pairwise_iff_getElem.mp inv.distinct j k (by simp; omega) (by simpa) below
  simp_all

/-- The invariant gives the promises that hold in every state. -/
theorem Inv.lifeCycle (inv : Inv spool) : LifeCycle spool := by
  refine ⟨?_, ?_, ?_, inv.distinct, fun k task listed => inv.find listed⟩
  · intro k inside
    rw [inv.own, List.count_eq_one_of_mem List.nodup_range (List.mem_range.mpr inside)]
  · intro k task listed
    obtain ⟨thread, threaded, own, stage⟩ := inv.phase_of listed
    exact ⟨thread, List.mem_of_getElem? threaded, own, stage⟩
  · -- a running task's thread holds the semaphore
    have holds : ∀ (k : Nat) (task : Task), spool.kpuTasklist[k]? = some task →
        isRunning task = true → ∃ phase : Phase,
          (spool.threads.map Thread.phase)[k]? = some phase ∧ phase.holds = true := by
      intro k task listed running
      obtain ⟨thread, threaded, _, stage⟩ := inv.phase_of listed
      refine ⟨thread.phase, by simp [threaded], ?_⟩
      rw [isRunning_eq] at running
      rw [stage_eq_some] at stage
      cases phase : thread.phase <;> simp_all [Phase.stage, Phase.holds]
    intro j k a b first second runA runB
    obtain ⟨phaseA, at_j, holdsA⟩ := holds j a first runA
    obtain ⟨phaseB, at_k, holdsB⟩ := holds k b second runB
    exact inv.sem.alone j k phaseA phaseB at_j at_k holdsA holdsB

private theorem setPhase_phases (spool : Spool) (k : Nat) (phase : Phase) :
    (setPhase spool k phase).threads.map Thread.phase =
      (spool.threads.map Thread.phase).set k phase := by
  apply List.ext_getElem?
  intro j
  simp only [setPhase, List.getElem?_map, List.getElem?_modify, List.getElem?_set,
    List.length_map]
  split
  · subst j
    cases threaded : spool.threads[k]? with
    | none => simp [List.getElem?_eq_none_iff.mp threaded]
    | some thread => simp [(List.getElem?_eq_some_iff.mp threaded).1]
  · simp

private theorem setPhase_tasks (spool : Spool) (k : Nat) (phase : Phase) :
    (setPhase spool k phase).threads.map Thread.task = spool.threads.map Thread.task := by
  apply List.ext_getElem?
  intro j
  simp only [setPhase, List.getElem?_map, List.getElem?_modify]
  cases spool.threads[j]? <;> simp
  split <;> rfl

/-- Updating task `k` while the phases move along keeps the invariant. -/
theorem Inv.advance (inv : Inv spool) (after : Spool)
    (maxid : after.maxid = spool.maxid)
    (tasks : after.kpuTasklist = spool.kpuTasklist.modify k update)
    (own : after.threads.map Thread.task = spool.threads.map Thread.task)
    (same : ∀ task : Task, (update task).id = task.id ∧ (update task).proc = task.proc)
    (moves : ∀ (j : Nat) (new : Phase), (after.threads.map Thread.phase)[j]? = some new →
      ∃ old : Phase, (spool.threads.map Thread.phase)[j]? = some old ∧
        ∀ task : Task, task.stage = some old.stage →
          (if k = j then update task else task).stage = some new.stage)
    (sem : Sem (after.threads.map Thread.phase) after.semValue after.semQueue) :
    Inv after where
  own := by
    rw [own, tasks, List.length_modify]
    exact inv.own
  few := by
    rw [tasks, List.length_modify]
    exact inv.few
  ids := by
    rw [tasks, List.length_modify, ← inv.ids]
    apply List.ext_getElem?
    intro j
    simp only [List.getElem?_map, List.getElem?_modify]
    cases spool.kpuTasklist[j]? <;> simp
    split <;> simp [(same _).1]
  next := by
    rw [tasks, List.length_modify, maxid]
    exact inv.next
  owned task member := by
    rw [tasks] at member
    obtain ⟨j, listed⟩ := List.mem_iff_getElem?.mp member
    simp only [List.getElem?_modify, Option.map_eq_map, Option.map_eq_some_iff] at listed
    obtain ⟨old, listed, rfl⟩ := listed
    have owned := inv.owned old (List.mem_of_getElem? listed)
    split <;> simpa [(same old).2] using owned
  staged j task phase listed phased := by
    rw [tasks] at listed
    simp only [List.getElem?_modify, Option.map_eq_map, Option.map_eq_some_iff] at listed
    obtain ⟨before, listed, rfl⟩ := listed
    obtain ⟨old, phasedOld, moved⟩ := moves j phase phased
    exact moved before (inv.staged j before old listed phasedOld)
  sem := sem

/-- The moves when only thread `k` changes its phase. -/
private theorem moves_set (at_k : phases[k]? = some old)
    (moves : ∀ task : Task, task.stage = some old.stage → (update task).stage = some new.stage)
    (j : Nat) (now : Phase) (phased : (phases.set k new)[j]? = some now) :
    ∃ before : Phase, phases[j]? = some before ∧
      ∀ task : Task, task.stage = some before.stage →
        (if k = j then update task else task).stage = some now.stage := by
  rw [set_getElem? at_k] at phased
  split at phased
  · subst j
    cases phased
    exact ⟨old, at_k, by simpa using moves⟩
  · exact ⟨now, phased, by simp [‹¬ k = j›]⟩

private theorem finished_moves (task : Task) (_ : task.stage = some Phase.running.stage) :
    (taskSuccess (stopTask task)).stage = some Phase.sleeping.stage := finished_stage task

private theorem returned_moves (task : Task) (_ : task.stage = some Phase.sleeping.stage) :
    (taskSuccess (stopTask task)).stage = some Phase.returned.stage := finished_stage task

private theorem woken_moves (task : Task) (ready : task.stage = some Phase.waiting.stage) :
    (id task).stage = some Phase.woken.stage := ready

/-- Scheduling a thread keeps the invariant. -/
theorem Inv.runKpu (inv : Inv spool) (k : Nat) : Inv (runKpu spool k) := by
  unfold KpuSpooling.runKpu
  cases at_k : spool.threads[k]? with
  | none => exact inv
  | some thread =>
    obtain ⟨task, phase⟩ := thread
    have phased : (spool.threads.map Thread.phase)[k]? = some phase := by simp [at_k]
    obtain rfl : task = k := inv.own_task at_k
    cases phase with
    | created =>
      dsimp only
      split
      · refine inv.advance _ rfl rfl (setPhase_tasks ..) (fun _ => ⟨rfl, rfl⟩) ?_ ?_
        · rw [setPhase_phases]
          exact moves_set phased fun _ => runTask_stage
        · rw [setPhase_phases]
          exact inv.sem.enter phased ‹_›
      · refine inv.advance _ rfl (List.modify_id task _).symm (setPhase_tasks ..)
          (fun _ => ⟨rfl, rfl⟩) ?_ ?_
        · rw [setPhase_phases]
          exact moves_set phased fun _ ready => ready
        · rw [setPhase_phases]
          exact inv.sem.wait phased (by omega)
    | waiting => exact inv
    | woken =>
      refine inv.advance _ rfl rfl (setPhase_tasks ..) (fun _ => ⟨rfl, rfl⟩) ?_ ?_
      · rw [setPhase_phases]
        exact moves_set phased fun _ => runTask_stage
      · rw [setPhase_phases]
        exact inv.sem.stay phased rfl rfl
    | running =>
      refine inv.advance _ rfl rfl (setPhase_tasks ..) (fun _ => ⟨rfl, rfl⟩) ?_ ?_
      · rw [setPhase_phases]
        exact moves_set phased finished_moves
      · rw [setPhase_phases]
        exact inv.sem.stay phased rfl rfl
    | sleeping =>
      have moved := moves_set phased returned_moves
      cases queue : spool.semQueue with
      | nil =>
        have left := inv.sem
        rw [queue] at left
        simp only [up, setPhase, setTask, queue]
        refine inv.advance _ rfl rfl (setPhase_tasks ..) (fun _ => ⟨rfl, rfl⟩) ?_ ?_
        · exact setPhase_phases spool task .returned ▸ moved
        · exact setPhase_phases spool task .returned ▸ left.leave phased
      | cons first rest =>
        have handed := inv.sem
        rw [queue] at handed
        have waits := (handed.queued first).mp (by simp)
        have at_first : ((spool.threads.map Thread.phase).set task .returned)[first]? =
            some .waiting := by
          rw [set_getElem? phased]
          split
          · simp_all
          · exact waits
        have phases := (setPhase_phases (setPhase spool task .returned) first .woken).trans
          (congrArg (fun l => l.set first Phase.woken) (setPhase_phases spool task .returned))
        simp only [up, setPhase, setTask, queue]
        refine inv.advance _ rfl rfl ?_ (fun _ => ⟨rfl, rfl⟩) ?_ ?_
        · exact (setPhase_tasks (setPhase spool task .returned) first .woken).trans
            (setPhase_tasks ..)
        · intro j now at_j
          obtain ⟨middle, at_middle, woken⟩ :=
            moves_set at_first woken_moves j now (phases ▸ at_j)
          obtain ⟨before, at_before, returned⟩ := moved j middle at_middle
          exact ⟨before, at_before, fun t ready => by simpa using woken _ (returned t ready)⟩
        · exact phases ▸ handed.handover phased
    | returned => exact inv

theorem Inv.id_at (inv : Inv spool) (listed : spool.kpuTasklist[k]? = some task) :
    task.id = allocId k := by
  have inside := (List.getElem?_eq_some_iff.mp listed).1
  have at_k := congrArg (fun l : List Nat => l[k]?) inv.ids
  simpa [listed, List.getElem?_range inside] using at_k

theorem tryRunTask_found
    (found : (spool.kpuTasklist.findIdx? fun task => decide (task.id = taskid)) = some k)
    (listed : spool.kpuTasklist[k]? = some task) (owner : task.proc = some proc) :
    tryRunTask spool taskid created = some (addRuntestThread spool k created) := by
  simp [tryRunTask, found, listed, owner]

/-- A task and the thread made for it join the list. -/
theorem Inv.submit (inv : Inv spool) (input : Nat) (room : spool.kpuTasklist.length < maxTasknum)
    (calm : junk[1] = false ∧ junk[3] = false) (live : findProc spool pid ≠ none) :
    ∃ after, tryRunTask (enlistTask spool pid input junk).1 (enlistTask spool pid input junk).2
        true = some after ∧ Inv after ∧
      ∃ task, after.kpuTasklist = spool.kpuTasklist ++ [task] ∧ task.input = input ∧
        task.proc = findProc spool pid ∧ task.stage = some .init := by
  have length := inv.length
  have fresh : spool.maxid = spool.kpuTasklist.length := by
    rw [inv.next, Nat.mod_eq_of_lt room]
  let task := taskInit ⟨junk, allocId spool.maxid, input, findProc spool pid⟩
  have ready : task.stage = some .init := taskInit_stage calm
  have found : ((spool.kpuTasklist ++ [task]).findIdx? fun other =>
      decide (other.id = allocId spool.maxid)) = some spool.kpuTasklist.length := by
    rw [List.findIdx?_eq_some_iff_getElem]
    refine ⟨by simp, by simp [task, taskInit], ?_⟩
    intro j below same
    rw [List.getElem_append_left below, decide_eq_true_eq, fresh,
      inv.id_at (List.getElem?_eq_getElem below)] at same
    exact Nat.ne_of_lt below (allocId_inj (Nat.lt_trans below room) room same)
  obtain ⟨proc, owner⟩ := Option.ne_none_iff_exists'.mp live
  refine ⟨{ spool with
      maxid := allocId spool.maxid
      kpuTasklist := spool.kpuTasklist ++ [task]
      threads := spool.threads ++ [⟨spool.kpuTasklist.length, .created⟩] }, ?_, ?_,
    task, rfl, rfl, rfl, ready⟩
  · exact tryRunTask_found found List.getElem?_concat_length owner
  · refine ⟨?_, ?_, ?_, ?_, ?_, ?_, ?_⟩
    · simp [inv.own, List.range_succ]
    · rw [List.length_append]
      exact room
    · simp [inv.ids, List.range_succ, task, taskInit, fresh]
    · simp [fresh, allocId]
    · intro other member
      rcases List.mem_append.mp member with old | new
      · exact inv.owned other old
      · cases List.mem_singleton.mp new
        exact live
    · intro k other phase listed phased
      rw [List.map_append] at phased
      by_cases inside : k < spool.kpuTasklist.length
      · rw [List.getElem?_append_left inside] at listed
        rw [List.getElem?_append_left (by simpa [length] using inside)] at phased
        exact inv.staged k other phase listed phased
      · obtain rfl : k = spool.kpuTasklist.length := by
          have := (List.getElem?_eq_some_iff.mp listed).1
          simp at this
          omega
        simp only [List.getElem?_append_right (Nat.le_refl _), Nat.sub_self,
          List.getElem?_cons_zero, Option.some.injEq] at listed
        rw [List.getElem?_append_right (by simp [length])] at phased
        simp [length] at phased
        rw [← listed, ← phased]
        exact ready
    · simpa using inv.sem.create

theorem Inv.processes (inv : Inv spool) (procs : List Proc) (procPid : Nat → Nat) :
    Inv { spool with procs := procs, procPid := procPid } :=
  ⟨inv.own, inv.few, inv.ids, inv.next, inv.owned, inv.staged, inv.sem⟩

/-! ## Runs -/

private theorem Kept.plain (inv : Inv after.spool)
    (forward : Forward before.spool.kpuTasklist after.spool.kpuTasklist)
    (other : ∀ pid input junk created, event ≠ .submit pid input junk created)
    (unasked : ∀ pid, event ≠ .check pid) : Kept before event after :=
  ⟨inv.lifeCycle, forward, fun _ _ _ _ same => absurd same (other _ _ _ _),
    fun pid same => absurd same (unasked pid)⟩

end Ucore.KpuSpooling
