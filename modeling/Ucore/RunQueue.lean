import Ucore.Stride

/-! Everything that puts processes to sleep and wakes them, over the stride
scheduler: `do_fork`, `do_exit`, `do_wait`, `do_kill` and `do_sleep` of
`kern/process/proc.c`, timers, semaphores, the keyboard and the KPU controller. A
process that sleeps is inside a call, whose frame says how it goes on. An event is
what the current process does up to its call of `schedule`, `schedule` itself, or
an interrupt, so an interrupt may come between the two. -/
namespace Ucore.RunQueue
open Sched (Timer TimerAddr Semaphore wtInterrupted wtChild wtKsem wtTimer wtKbd interruptible addLoop delLoop)

def wtKpu : BitVec 32 := 0x00000008 ||| wtInterrupted
def wtKpuInit : BitVec 32 := 0x00000010 ||| wtInterrupted

def idleproc : Nat := Stride.idleproc
def initproc : Nat := 1
def kpuTaskCtrlProc : Nat := 2

def stdinBufsize : Nat := 4096

/-- The call that a process is inside of after `schedule` took the CPU from it. -/
inductive Frame where
  | sleep
  | down (sem : Nat) (wakeupFlags : BitVec 32)
  | wait (pid : Nat)
  | stdin (left : Nat) (wakeupFlags : BitVec 32)
  | kpu

/-- `children` are the chains of `cptr` and `optr`. `unread` counts the characters
between `p_rpos` and `p_wpos`. -/
structure Kernel where
  sched : Stride.Kernel
  exiting : Nat → Bool
  parent : Nat → Nat
  children : Nat → List Nat
  frames : Nat → Option Frame
  timerList : List Timer
  sems : Nat → Semaphore
  stdinQueue : List Nat
  unread : Nat
  callerPid : Nat
  kpuioInit : Bool
  kpuioCheck : Bool

/-- `zombie` is the assertion of `wakeup_proc`, `null` its call on no process. -/
inductive Fault where
  | zombie
  | null
  | assertion
  | panic
  deriving DecidableEq

abbrev current (k : Kernel) : Nat := k.sched.current

def state (k : Kernel) (pid : Nat) : Sched.ProcState := (k.sched.procs pid).state

def waitState (k : Kernel) (pid : Nat) : BitVec 32 := (k.sched.procs pid).waitState

def setFrame (k : Kernel) (pid : Nat) (frame : Option Frame) : Kernel :=
  { k with frames := Function.update k.frames pid frame }

def setSem (k : Kernel) (sem : Nat) (semaphore : Semaphore) : Kernel :=
  { k with sems := Function.update k.sems sem semaphore }

/-- The current process is not inside a call that it has slept in. -/
def ready (k : Kernel) : Bool := Stride.running k.sched && (k.frames (current k)).isNone

def findProc (k : Kernel) (pid : Nat) : Option Nat := if 0 < pid ∧ state k pid ≠ .uninit then some pid else none

def wakeupProc (k : Kernel) (pid : Nat) : Except Fault Kernel :=
  match Stride.wakeupProc k.sched pid with
  | some sched => .ok { k with sched := sched }
  | none => .error .zombie

/-- Marks the current process asleep in a call. -/
def sleepIn (k : Kernel) (waitState : BitVec 32) (frame : Option Frame) : Kernel :=
  setFrame { k with sched := Stride.sleepIn k.sched waitState } (current k) frame

/-! ## Processes -/

/-- `do_fork` of a process that gets this pid. -/
def doFork (k : Kernel) (pid : Nat) : Except Fault Kernel :=
  if waitState k (current k) ≠ 0 then .error .assertion
  else
    wakeupProc { k with
      sched := Stride.setProc k.sched pid Stride.allocProc
      exiting := Function.update k.exiting pid false
      parent := Function.update k.parent pid (current k)
      children := Function.update (Function.update k.children pid []) (current k) (pid :: k.children (current k)) } pid

def wakeInState (k : Kernel) (pid : Nat) : Except Fault Kernel :=
  if waitState k pid = wtChild then wakeupProc k pid else .ok k

/-- Hands the children of an exiting process to `initproc`, one at a time. -/
def handChildren (k : Kernel) (pid : Nat) : List Nat → Except Fault Kernel
  | [] => .ok { k with children := Function.update k.children pid [] }
  | child :: rest => do
    let k := { k with
      parent := Function.update k.parent child initproc
      children := Function.update k.children initproc (child :: k.children initproc) }
    let k ← if state k child = .zombie then wakeInState k initproc else .ok k
    handChildren k pid rest

def doExit (k : Kernel) : Except Fault Kernel := do
  let pid := current k
  let k := { k with sched := Stride.zombify k.sched }
  let k ← wakeInState k (k.parent pid)
  handChildren k pid (k.children pid)

/-- Frees a zombie that was waited for. -/
def reap (k : Kernel) (pid : Nat) : Kernel :=
  { k with
    sched := Stride.setProc k.sched pid Stride.allocProc
    children := Function.update k.children (k.parent pid) ((k.children (k.parent pid)).erase pid) }

/-- The children that `do_wait` looks at: one, or all. -/
def candidates (k : Kernel) (pid : Nat) : List Nat :=
  if pid ≠ 0 then ((findProc k pid).filter fun child => k.parent child = current k).toList
  else k.children (current k)

/-- `do_wait` once around its loop. -/
def doWait (k : Kernel) (pid : Nat) : Except Fault Kernel :=
  match (candidates k pid).find? fun child => state k child = .zombie with
  | some child => if child = idleproc ∨ child = initproc then .error .panic else .ok (reap k child)
  | none => .ok (if candidates k pid = [] then k else sleepIn k wtChild (some (.wait pid)))

def doKill (k : Kernel) (pid : Nat) : Except Fault Kernel :=
  match findProc k pid with
  | none => .ok k
  | some pid =>
    if k.exiting pid then .ok k
    else
      let k := { k with exiting := Function.update k.exiting pid true }
      if interruptible (waitState k pid) then wakeupProc k pid else .ok k

/-! ## Timers -/

def addTimer (k : Kernel) (timer : Timer) : Except Fault Kernel :=
  if 0 < timer.expires && !k.timerList.any fun other => other.addr = timer.addr then
    .ok { k with timerList := addLoop timer k.timerList }
  else .error .assertion

def doSleep (k : Kernel) (time : Nat) : Except Fault Kernel :=
  if time = 0 then .ok k
  else addTimer (sleepIn k wtTimer (some .sleep)) ⟨.stack (current k), current k, time⟩

def expire (k : Kernel) (timer : Timer) : Except Fault Kernel :=
  if waitState k timer.proc ≠ 0 && !interruptible (waitState k timer.proc) then .error .assertion
  else wakeupProc k timer.proc

def expireLoop (k : Kernel) : List Timer → Except Fault Kernel
  | [] => .ok { k with timerList := [] }
  | timer :: rest =>
    if timer.expires = 0 then do
      let k ← expire k timer
      expireLoop k rest
    else .ok { k with timerList := timer :: rest }

/-- `run_timer_list` but for its last line. -/
def runTimers (k : Kernel) : Except Fault Kernel :=
  match k.timerList with
  | [] => .ok k
  | timer :: rest =>
    if timer.expires ≠ 0 then expireLoop k ({ timer with expires := timer.expires - 1 } :: rest)
    else .error .assertion

/-! ## Semaphores -/

def up (k : Kernel) (sem : Nat) : Except Fault Kernel :=
  match (k.sems sem).waitQueue with
  | [] => .ok (setSem k sem ⟨((k.sems sem).value + 1).bmod (2 ^ 32), []⟩)
  | pid :: rest =>
    if waitState k pid = wtKsem then
      wakeupProc (setFrame (setSem k sem ⟨(k.sems sem).value, rest⟩) pid (some (.down sem wtKsem))) pid
    else .error .assertion

def down (k : Kernel) (sem : Nat) : Kernel :=
  if 0 < (k.sems sem).value then setSem k sem { k.sems sem with value := (k.sems sem).value - 1 }
  else
    sleepIn (setSem k sem { k.sems sem with waitQueue := (k.sems sem).waitQueue ++ [current k] }) wtKsem
      (some (.down sem wtInterrupted))

def downResume (k : Kernel) (sem : Nat) (wakeupFlags : BitVec 32) : Except Fault Kernel :=
  let pid := current k
  let k := setSem k sem { k.sems sem with waitQueue := (k.sems sem).waitQueue.erase pid }
  if wakeupFlags = wtKsem then .ok (setFrame k pid none) else .error .assertion

/-! ## The keyboard -/

/-- `dev_stdin_read` of what is still wanted, up to its end or its `schedule`. -/
def devStdinRead (k : Kernel) (left : Nat) : Kernel :=
  let got := min left k.unread
  let k := { k with unread := k.unread - got }
  if left = got then setFrame k (current k) none
  else
    sleepIn { k with stdinQueue := k.stdinQueue ++ [current k] } wtKbd (some (.stdin (left - got) wtInterrupted))

def stdinResume (k : Kernel) (left : Nat) (wakeupFlags : BitVec 32) : Kernel :=
  let k := { k with stdinQueue := k.stdinQueue.erase (current k) }
  if wakeupFlags = wtKbd then devStdinRead k left else setFrame k (current k) none

def devStdinWrite (k : Kernel) : Kernel := if k.unread < stdinBufsize then { k with unread := k.unread + 1 } else k

/-- The flags of a reader that is taken from the wait queue. -/
def rung : Option Frame → Option Frame
  | some (.stdin left _) => some (.stdin left wtKbd)
  | frame => frame

/-- `wakeup_queue` with `del`. -/
def wakeupQueue (k : Kernel) : List Nat → Except Fault Kernel
  | [] => .ok { k with stdinQueue := [] }
  | pid :: rest => do
    let k ← wakeupProc (setFrame k pid (rung (k.frames pid))) pid
    wakeupQueue k rest

def inputWakeup (k : Kernel) : Except Fault Kernel := if 0 < k.unread then wakeupQueue k k.stdinQueue else .ok k

/-- A timer interrupt. -/
def tick (k : Kernel) : Except Fault Kernel := do
  let k ← runTimers k
  inputWakeup { k with sched := Stride.schedClassProcTick k.sched (current k) }

/-! ## The KPU -/

/-- `kpuio_io` of a block that is written. `first` and `last` are what its header
and its length say. -/
def kpuWrite (k : Kernel) (first last : Bool) : Except Fault Kernel :=
  let k := { k with kpuioInit := true, kpuioCheck := false, callerPid := if first then current k else k.callerPid }
  if k.callerPid ≠ current k then .error .panic
  else if last then wakeupProc (sleepIn k wtKpuInit (some .kpu)) kpuTaskCtrlProc
  else .ok k

/-- `kpuio_io` of a read. -/
def kpuRead (k : Kernel) : Except Fault Kernel :=
  wakeupProc (sleepIn { k with kpuioCheck := true, kpuioInit := false, callerPid := current k } wtKpu (some .kpu))
    kpuTaskCtrlProc

def wakeCaller (k : Kernel) : Except Fault Kernel :=
  match findProc k k.callerPid with
  | some pid => wakeupProc k pid
  | none => .error .null

/-- `kpu_task_ctrl` once around its loop, up to its `schedule`. -/
def kpuTaskCtrl (k : Kernel) : Except Fault Kernel :=
  if k.kpuioInit && !k.kpuioCheck then do
    let k ← if 2 < k.callerPid then wakeCaller k else .ok k
    .ok (sleepIn k wtKpuInit none)
  else if k.kpuioCheck && !k.kpuioInit then wakeCaller (sleepIn k wtKpu none)
  else .ok (sleepIn k wtKpu none)

/-! ## Steps -/

inductive Event where
  | fork (pid : Nat)
  | exit
  | wait (pid : Nat)
  | kill (pid : Nat)
  | sleep (time : Nat)
  | up (sem : Nat)
  | down (sem : Nat)
  | readStdin (len : Nat)
  | kpuWrite (first last : Bool)
  | kpuRead
  | kpuTaskCtrl
  | setPriority (priority : BitVec 32)
  | resume
  | schedule
  | tick
  | key

/-- `idleproc` and `initproc` do not exit, and the controller loops for ever. -/
def mayExit (k : Kernel) : Bool :=
  current k ≠ idleproc && current k ≠ initproc && current k ≠ kpuTaskCtrlProc

/-- What a process does when `schedule` returns in it. -/
def resume (k : Kernel) : Except Fault Kernel :=
  match k.frames (current k) with
  | none => .ok k
  | some .sleep => .ok (setFrame { k with timerList := delLoop (.stack (current k)) k.timerList } (current k) none)
  | some (.down sem wakeupFlags) => downResume k sem wakeupFlags
  | some (.wait pid) =>
    let k := setFrame k (current k) none
    if k.exiting (current k) then (if mayExit k then doExit k else .error .panic) else doWait k pid
  | some (.stdin left wakeupFlags) => .ok (stdinResume k left wakeupFlags)
  | some .kpu => .ok (setFrame { k with kpuioInit := false, kpuioCheck := false } (current k) none)

def step (k : Kernel) : Event → Except Fault Kernel
  | .fork pid => if ready k ∧ state k pid = .uninit then doFork k pid else .ok k
  | .exit => if ready k ∧ mayExit k then doExit k else .ok k
  | .wait pid => if ready k then doWait k pid else .ok k
  | .kill pid => if ready k then doKill k pid else .ok k
  | .sleep time => if ready k then doSleep k time else .ok k
  | .up sem => if ready k then up k sem else .ok k
  | .down sem => .ok (if ready k then down k sem else k)
  | .readStdin len => .ok (if ready k then devStdinRead k len else k)
  | .kpuWrite first last => if ready k then kpuWrite k first last else .ok k
  | .kpuRead => if ready k then kpuRead k else .ok k
  | .kpuTaskCtrl => if ready k ∧ current k = kpuTaskCtrlProc then kpuTaskCtrl k else .ok k
  | .setPriority priority => .ok (if ready k then { k with sched := Stride.lab6SetPriority k.sched priority } else k)
  | .resume => if Stride.running k.sched then resume k else .ok k
  | .schedule =>
    match Stride.schedule k.sched with
    | some sched => .ok { k with sched := sched }
    | none => .error .assertion
  | .tick => tick k
  | .key => .ok (devStdinWrite k)

/-- `idleproc` has created `initproc` and the controller. -/
def boot : Kernel where
  sched := ((Stride.step Stride.boot (.create initproc)).bind (Stride.step · (.create kpuTaskCtrlProc))).getD Stride.boot
  exiting _ := false
  parent _ := idleproc
  children pid := if pid = idleproc then [kpuTaskCtrlProc, initproc] else []
  frames _ := none
  timerList := []
  sems _ := ⟨0, []⟩
  stdinQueue := []
  unread := 0
  callerPid := 0
  kpuioInit := false
  kpuioCheck := false

end Ucore.RunQueue
