import Ucore.Sched
import Ucore.SkewHeap

/-! The stride scheduler: `kern/schedule/default_sched_stride.c` with
`wakeup_proc` and `schedule` of `kern/schedule/sched.c`, `alloc_proc` and
`lab6_set_priority` of `kern/process/proc.c`. The run queue is the skew heap of
the pids whose `lab6_run_pool` is linked into it. `none` is a failed assertion. -/
namespace Ucore.Stride
open Sched SkewHeap

/-- `BIG_STRIDE`. -/
def bigStride : BitVec 32 := 1 <<< 30

def maxTimeSlice : Int := 5

def idleproc : Nat := 0

/-- What the scheduler uses of a `proc_struct`; `rq` is set in a process that has
been in the run queue. A pid without a process is `uninit`. -/
structure Proc where
  state : ProcState
  waitState : BitVec 32
  needResched : Bool
  rq : Bool
  timeSlice : Int
  lab6Stride : BitVec 32
  lab6Priority : BitVec 32

structure RunQueue where
  procNum : Nat
  lab6RunPool : Heap Nat

structure Kernel where
  procs : Nat → Proc
  current : Nat
  rq : RunQueue

def setProc (k : Kernel) (pid : Nat) (proc : Proc) : Kernel :=
  { k with procs := Function.update k.procs pid proc }

def allocProc : Proc := ⟨.uninit, 0, false, false, 0, 0, 0⟩

/-! ## The scheduling class -/

/-- Compares the strides by the sign of their 32-bit difference. -/
def procStrideComp (p q : Proc) : Int :=
  let c := (p.lab6Stride - q.lab6Stride).toInt
  if 0 < c then 1 else if c = 0 then 0 else -1

def less (procs : Nat → Proc) (p q : Nat) : Bool := procStrideComp (procs p) (procs q) = -1

def pass (priority : BitVec 32) : BitVec 32 := if priority ≠ 0 then bigStride / priority else bigStride

def strideEnqueue (k : Kernel) (pid : Nat) : Kernel :=
  let proc := k.procs pid
  let timeSlice := if proc.timeSlice = 0 ∨ maxTimeSlice < proc.timeSlice then maxTimeSlice else proc.timeSlice
  { setProc k pid { proc with timeSlice := timeSlice, rq := true } with
    rq := ⟨k.rq.procNum + 1, k.rq.lab6RunPool.insert (less k.procs) pid⟩ }

def strideDequeue (k : Kernel) (pid : Nat) : Option Kernel :=
  if (k.procs pid).rq && 0 < k.rq.procNum then
    some { k with rq := ⟨k.rq.procNum - 1, k.rq.lab6RunPool.remove (less k.procs) pid⟩ }
  else none

/-- What `stride_pick_next` adds to the process it picks. -/
def charge (k : Kernel) (pid : Nat) : Kernel :=
  let proc := k.procs pid
  setProc k pid { proc with lab6Stride := proc.lab6Stride + pass proc.lab6Priority }

def strideProcTick (proc : Proc) : Proc :=
  let timeSlice := if 0 < proc.timeSlice then proc.timeSlice - 1 else proc.timeSlice
  { proc with timeSlice := timeSlice, needResched := proc.needResched || timeSlice = 0 }

/-! ## The scheduler -/

def schedClassEnqueue (k : Kernel) (pid : Nat) : Kernel :=
  if pid ≠ idleproc then strideEnqueue k pid else k

def schedClassProcTick (k : Kernel) (pid : Nat) : Kernel :=
  setProc k pid
    (if pid ≠ idleproc then strideProcTick (k.procs pid) else { k.procs pid with needResched := true })

/-- Waking a runnable process only warns. -/
def wakeupProc (k : Kernel) (pid : Nat) : Option Kernel :=
  match (k.procs pid).state with
  | .zombie => none
  | .runnable => some k
  | _ =>
    let k := setProc k pid { k.procs pid with state := .runnable, waitState := 0 }
    some (if pid ≠ k.current then schedClassEnqueue k pid else k)

/-- `schedule` up to the choice of the next process. -/
def requeue (k : Kernel) : Kernel :=
  let k := setProc k k.current { k.procs k.current with needResched := false }
  if (k.procs k.current).state = .runnable then schedClassEnqueue k k.current else k

def schedule (k : Kernel) : Option Kernel :=
  let k := requeue k
  match k.rq.lab6RunPool.root with
  | none => some { k with current := idleproc }
  | some next => (strideDequeue (charge k next) next).map fun k => { k with current := next }

def lab6SetPriority (k : Kernel) (priority : BitVec 32) : Kernel :=
  setProc k k.current { k.procs k.current with lab6Priority := if priority = 0 then 1 else priority }

/-- The current process marks itself asleep. -/
def sleepIn (k : Kernel) (waitState : BitVec 32) : Kernel :=
  setProc k k.current { k.procs k.current with state := .sleeping, waitState := waitState }

/-- The current process marks itself dead, in `do_exit`. -/
def zombify (k : Kernel) : Kernel := setProc k k.current { k.procs k.current with state := .zombie }

/-! ## Steps -/

inductive Event where
  /-- `do_fork` of a process that gets this pid. -/
  | create (pid : Nat)
  | sleep (waitState : BitVec 32)
  | wake (pid : Nat)
  | exit
  /-- `do_wait` frees a zombie. -/
  | reap (pid : Nat)
  | setPriority (priority : BitVec 32)
  | tick
  | schedule

/-- The current process runs kernel code, and is not `idleproc`. -/
def running (k : Kernel) : Bool := (k.procs k.current).state = .runnable && k.current ≠ idleproc

def step (k : Kernel) : Event → Option Kernel
  | .create pid => if (k.procs pid).state = .uninit then wakeupProc (setProc k pid allocProc) pid else some k
  | .sleep waitState => some (if running k then sleepIn k waitState else k)
  | .wake pid => if (k.procs pid).state ≠ .uninit then wakeupProc k pid else some k
  | .exit => some (if running k then zombify k else k)
  | .reap pid =>
    some (if (k.procs pid).state = .zombie ∧ pid ≠ k.current then setProc k pid allocProc else k)
  | .setPriority priority => some (lab6SetPriority k priority)
  | .tick => some (schedClassProcTick k k.current)
  | .schedule => schedule k

/-- `idleproc` runs alone. -/
def boot : Kernel where
  procs pid := if pid = idleproc then { allocProc with state := .runnable, needResched := true } else allocProc
  current := idleproc
  rq := ⟨0, .leaf⟩

end Ucore.Stride
