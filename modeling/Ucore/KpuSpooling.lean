import Mathlib

/-! `kern/fs/devs/kpu_spooling.c`: the list of KPU tasks and the threads that
run them. Tasks are never freed, so a task is denoted by its position in
`kpu_tasklist`; what `kmalloc` and `kernel_thread` answer comes with the event.
A `none` is an access through a null pointer. -/
namespace Ucore.KpuSpooling

def maxTasknum : Nat := 8

def initStateBit : BitVec 32 := 0x1
def runningStateBit : BitVec 32 := 0x2
def successStateBit : BitVec 32 := 0x8

structure Task where
  sflag : BitVec 32
  id : Nat
  input : Nat
  /-- The submitter's `proc_struct`, or null. -/
  proc : Option Nat

def taskInit (task : Task) : Task := { task with sflag := task.sflag ||| initStateBit }
def runTask (task : Task) : Task := { task with sflag := task.sflag ||| runningStateBit }
def stopTask (task : Task) : Task := { task with sflag := task.sflag &&& ~~~runningStateBit }
def taskSuccess (task : Task) : Task := { task with sflag := task.sflag ||| successStateBit }

def isRunning (task : Task) : Bool := task.sflag &&& runningStateBit != 0
def isSuccess (task : Task) : Bool := task.sflag &&& successStateBit != 0
def canRun (task : Task) : Bool :=
  task.sflag &&& initStateBit != 0 && !isRunning task && !isSuccess task

/-- The answers of `try_check_result`. -/
inductive Result where
  | got
  | waiting
  | running
  | notexist
  deriving DecidableEq

/-- Where a `run_kpu` thread is: not yet scheduled, asleep in `down`, handed
the semaphore but not yet scheduled, inside `kpu_test`, asleep after it, or
returned. -/
inductive Phase where
  | created
  | waiting
  | woken
  | running
  | sleeping
  | returned
  deriving DecidableEq

structure Thread where
  task : Nat
  phase : Phase

/-- A process in the pid hash and the address of its `proc_struct`. -/
structure Proc where
  pid : Nat
  addr : Nat

structure Spool where
  maxid : Nat
  kpuTasklist : List Task
  /-- `kpu_sem`: its value and the threads in its wait queue. -/
  semValue : Nat
  semQueue : List Nat
  threads : List Thread
  procs : List Proc
  /-- The `pid` field at an address, also where no live process is. -/
  procPid : Nat → Nat

def kpuSpoolingInit (spool : Spool) : Spool :=
  { spool with maxid := 0, kpuTasklist := [], semValue := 1, semQueue := [] }

def findProc (spool : Spool) (pid : Nat) : Option Nat :=
  (spool.procs.find? fun proc => proc.pid = pid).map Proc.addr

def allocId (maxid : Nat) : Nat := (maxid + 1) % maxTasknum

/-- The end of `add_kpu_task`, for an input with `jpgsize > 0`. `junk` is the
`sflag` the new task's memory held before. -/
def enlistTask (spool : Spool) (callerpid input : Nat) (junk : BitVec 32) : Spool × Nat :=
  let id := allocId spool.maxid
  let newtask := taskInit ⟨junk, id, input, findProc spool callerpid⟩
  ({ spool with maxid := id, kpuTasklist := spool.kpuTasklist ++ [newtask] }, id)

/-- The loop of `try_check_result` over the rest of the list. -/
def checkTasks (procPid : Nat → Nat) (pid : Nat) : List Task → Option Result
  | [] => some .notexist
  | task :: rest => do
    let proc ← task.proc
    if !isRunning task && isSuccess task && pid == procPid proc then
      return .got
    else if isRunning task then
      if pid == procPid proc then return .running else checkTasks procPid pid rest
    else
      if pid == procPid proc then return .waiting else checkTasks procPid pid rest

def tryCheckResult (spool : Spool) (pid : Nat) : Option Result :=
  checkTasks spool.procPid pid spool.kpuTasklist

/-- `created` is whether `kernel_thread` made the thread. -/
def addRuntestThread (spool : Spool) (task : Nat) (created : Bool) : Spool :=
  if created then { spool with threads := spool.threads ++ [⟨task, .created⟩] } else spool

/-- Starts a thread for the first task with this id; reads the pid through its
`proc` for the message it prints. -/
def tryRunTask (spool : Spool) (taskid : Nat) (created : Bool) : Option Spool :=
  match spool.kpuTasklist.findIdx? fun task => task.id = taskid with
  | none => some spool
  | some k => do
    let runtask ← spool.kpuTasklist[k]?
    let _ ← runtask.proc
    return addRuntestThread spool k created

def setPhase (spool : Spool) (k : Nat) (phase : Phase) : Spool :=
  { spool with threads := spool.threads.modify k fun thread => { thread with phase } }

def setTask (spool : Spool) (k : Nat) (update : Task → Task) : Spool :=
  { spool with kpuTasklist := spool.kpuTasklist.modify k update }

/-- `up(&kpu_sem)`: a waiting thread gets the semaphore handed over. -/
def up (spool : Spool) : Spool :=
  match spool.semQueue with
  | [] => { spool with semValue := spool.semValue + 1 }
  | first :: rest => setPhase { spool with semQueue := rest } first .woken

/-- `run_kpu` of thread `k` from where it is to where it next gives up the
processor. A thread that waits or has returned is not scheduled. -/
def runKpu (spool : Spool) (k : Nat) : Spool :=
  match spool.threads[k]? with
  | none => spool
  | some thread =>
    match thread.phase with
    | .created =>
      if 0 < spool.semValue then
        setPhase (setTask { spool with semValue := spool.semValue - 1 } thread.task runTask) k .running
      else setPhase { spool with semQueue := spool.semQueue ++ [k] } k .waiting
    | .woken => setPhase (setTask spool thread.task runTask) k .running
    -- `ai_done` at the end of `kpu_test`, then `do_sleep`
    | .running => setPhase (setTask spool thread.task fun t => taskSuccess (stopTask t)) k .sleeping
    | .sleeping =>
      up (setPhase (setTask spool thread.task fun t => taskSuccess (stopTask t)) k .returned)
    | .waiting | .returned => spool

/-- Whether a live process has this pid or this `proc_struct`. -/
def taken (spool : Spool) (pid addr : Nat) : Bool :=
  spool.procs.any fun proc => proc.pid = pid || proc.addr = addr

/-- A new process. -/
def spawn (spool : Spool) (pid addr : Nat) : Spool :=
  { spool with
    procs := ⟨pid, addr⟩ :: spool.procs
    procPid := fun a => if a = addr then pid else spool.procPid a }

/-- A process is reaped; the memory of its `proc_struct` may be written. -/
def reap (spool : Spool) (pid junk : Nat) : Spool :=
  match findProc spool pid with
  | none => spool
  | some addr =>
    { spool with
      procs := spool.procs.filter fun proc => proc.pid ≠ pid
      procPid := fun a => if a = addr then junk else spool.procPid a }

end Ucore.KpuSpooling
