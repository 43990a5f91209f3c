import Ucore.Runs

/-! What processes sleep in: timers and semaphores, `kern/schedule/sched.c`,
`kern/sync/wait.c`, `kern/sync/sem.c`, and `do_sleep` and `do_kill` of
`kern/process/proc.c`. A `wait_t` or a sleeper's `timer_t` lives on the stack of
the process that is inside the call, so it is kept with that process. `none` is
a failed assertion. Which process runs next is the environment's choice; the run
queue is left out. -/
namespace Ucore.Sched

inductive ProcState where
  | uninit
  | sleeping
  | runnable
  | zombie
  deriving DecidableEq

def wtInterrupted : BitVec 32 := 0x80000000
def wtChild : BitVec 32 := 0x00000001 ||| wtInterrupted
def wtKsem : BitVec 32 := 0x00000100
def wtTimer : BitVec 32 := 0x00000002 ||| wtInterrupted
def wtKbd : BitVec 32 := 0x00000004 ||| wtInterrupted

def eInval : Int := 3
def eKilled : Int := 9

/-- `exiting` is `PF_EXITING`. -/
structure Proc where
  state : ProcState
  waitState : BitVec 32
  exiting : Bool

/-- A `timer_t` is on the stack of the process inside `do_sleep`, or elsewhere. -/
inductive TimerAddr where
  | stack (pid : Nat)
  | other (n : Nat)
  deriving DecidableEq

structure Timer where
  addr : TimerAddr
  proc : Nat
  expires : Nat

/-- A wait queue holds the processes whose `wait_t` is linked into it. -/
structure Semaphore where
  value : Int
  waitQueue : List Nat

/-- The call that a process is inside of while it does not run. -/
inductive Frame where
  | sleep
  | down (sem : Nat) (wakeupFlags : BitVec 32)

structure Kernel where
  procs : Nat → Proc
  frames : Nat → Option Frame
  timerList : List Timer
  sems : Nat → Semaphore

def setProc (k : Kernel) (pid : Nat) (proc : Proc) : Kernel :=
  { k with procs := Function.update k.procs pid proc }

def setFrame (k : Kernel) (pid : Nat) (frame : Option Frame) : Kernel :=
  { k with frames := Function.update k.frames pid frame }

def setSem (k : Kernel) (sem : Nat) (semaphore : Semaphore) : Kernel :=
  { k with sems := Function.update k.sems sem semaphore }

/-- The scheduler may pick this process. -/
def awake (k : Kernel) (pid : Nat) : Bool := (k.procs pid).state = .runnable

/-- The process may run and is not inside a blocking call. -/
def ready (k : Kernel) (pid : Nat) : Bool := awake k pid && (k.frames pid).isNone

/-- Waking a runnable process only warns. -/
def wakeupProc (k : Kernel) (pid : Nat) : Option Kernel :=
  match (k.procs pid).state with
  | .zombie => none
  | .runnable => some k
  | _ => some (setProc k pid { k.procs pid with state := .runnable, waitState := 0 })

/-- Marks the current process asleep. -/
def sleepIn (k : Kernel) (pid : Nat) (waitState : BitVec 32) (frame : Frame) : Kernel :=
  setFrame (setProc k pid { k.procs pid with state := .sleeping, waitState := waitState }) pid frame

def interruptible (waitState : BitVec 32) : Bool := waitState &&& wtInterrupted ≠ 0

def doKill (k : Kernel) (pid : Nat) : Option (Kernel × Int) :=
  if (k.procs pid).state = .uninit then some (k, -eInval)
  else if (k.procs pid).exiting then some (k, -eKilled)
  else
    let k := setProc k pid { k.procs pid with exiting := true }
    if interruptible (k.procs pid).waitState then (wakeupProc k pid).map fun k => (k, 0)
    else some (k, 0)

/-! ## Timers -/

def listed (k : Kernel) (addr : TimerAddr) : Bool := k.timerList.any fun timer => timer.addr = addr

/-- The loop of `add_timer`. -/
def addLoop (timer : Timer) : List Timer → List Timer
  | [] => [timer]
  | next :: rest =>
    if timer.expires < next.expires then
      timer :: { next with expires := next.expires - timer.expires } :: rest
    else next :: addLoop { timer with expires := timer.expires - next.expires } rest

def addTimer (k : Kernel) (timer : Timer) : Option Kernel :=
  if 0 < timer.expires && !listed k timer.addr then
    some { k with timerList := addLoop timer k.timerList }
  else none

/-- What is left to a deleted timer goes to the next one, in 32 bits. -/
def handOn (expires : Nat) : List Timer → List Timer
  | [] => []
  | next :: rest => { next with expires := (next.expires + expires) % 2 ^ 32 } :: rest

def delLoop (addr : TimerAddr) : List Timer → List Timer
  | [] => []
  | timer :: rest =>
    if timer.addr = addr then
      if timer.expires ≠ 0 then handOn timer.expires rest else rest
    else timer :: delLoop addr rest

/-- A timer that is not in the list is left alone. -/
def delTimer (k : Kernel) (addr : TimerAddr) : Kernel :=
  { k with timerList := delLoop addr k.timerList }

/-- Wakes the process of an expired timer. -/
def expire (k : Kernel) (timer : Timer) : Option Kernel :=
  let waitState := (k.procs timer.proc).waitState
  if waitState ≠ 0 && !interruptible waitState then none else wakeupProc k timer.proc

/-- The inner loop of `run_timer_list`, which unlinks each timer it has expired. -/
def expireLoop (k : Kernel) : List Timer → Option Kernel
  | [] => some { k with timerList := [] }
  | timer :: rest =>
    if timer.expires = 0 then (expire k timer).bind fun k => expireLoop k rest
    else some { k with timerList := timer :: rest }

def runTimerList (k : Kernel) : Option Kernel :=
  match k.timerList with
  | [] => some k
  | timer :: rest =>
    if timer.expires ≠ 0 then expireLoop k ({ timer with expires := timer.expires - 1 } :: rest)
    else none

/-- `do_sleep` up to `schedule`. -/
def doSleep (k : Kernel) (pid time : Nat) : Option Kernel :=
  if time = 0 then some k
  else addTimer (sleepIn k pid wtTimer .sleep) ⟨.stack pid, pid, time⟩

/-! ## Semaphores -/

/-- `wakeup_wait` with `del`. -/
def wakeupWait (k : Kernel) (sem pid : Nat) (wakeupFlags : BitVec 32) : Option Kernel :=
  let semaphore := k.sems sem
  if pid ∈ semaphore.waitQueue then
    let k := setSem k sem { semaphore with waitQueue := semaphore.waitQueue.erase pid }
    wakeupProc (setFrame k pid (some (.down sem wakeupFlags))) pid
  else none

/-- The value is a 32-bit `int`. -/
def up (k : Kernel) (sem : Nat) : Option Kernel :=
  let semaphore := k.sems sem
  match semaphore.waitQueue with
  | [] => some (setSem k sem { semaphore with value := (semaphore.value + 1).bmod (2 ^ 32) })
  | pid :: _ => if (k.procs pid).waitState = wtKsem then wakeupWait k sem pid wtKsem else none

/-- Takes a unit of a semaphore that has one. -/
def take (k : Kernel) (sem : Nat) : Kernel :=
  setSem k sem { k.sems sem with value := (k.sems sem).value - 1 }

def waitCurrentSet (k : Kernel) (sem pid : Nat) (waitState : BitVec 32) : Kernel :=
  let semaphore := k.sems sem
  sleepIn (setSem k sem { semaphore with waitQueue := semaphore.waitQueue ++ [pid] }) pid waitState
    (.down sem wtInterrupted)

/-- `down` to its end, or up to `schedule`. -/
def down (k : Kernel) (pid sem : Nat) : Kernel :=
  if 0 < (k.sems sem).value then take k sem else waitCurrentSet k sem pid wtKsem

def tryDown (k : Kernel) (sem : Nat) : Kernel :=
  if 0 < (k.sems sem).value then take k sem else k

def waitCurrentDel (k : Kernel) (sem pid : Nat) : Kernel :=
  let semaphore := k.sems sem
  if pid ∈ semaphore.waitQueue then
    setSem k sem { semaphore with waitQueue := semaphore.waitQueue.erase pid }
  else k

/-- `down` after `schedule`, with its assertion on the flags. -/
def downResume (k : Kernel) (pid sem : Nat) (wakeupFlags : BitVec 32) : Option Kernel :=
  let flags := if wakeupFlags ≠ wtKsem then wakeupFlags else 0
  if flags = 0 then some (setFrame (waitCurrentDel k sem pid) pid none) else none

/-! ## Steps -/

inductive Event where
  | up (pid sem : Nat)
  | down (pid sem : Nat)
  | tryDown (pid sem : Nat)
  | sleep (pid time : Nat)
  | resume (pid : Nat)
  | kill (pid : Nat)
  | tick
  | addTimer (n pid expires : Nat)
  | delTimer (n : Nat)

/-- `schedule` returns in this process. -/
def resume (k : Kernel) (pid : Nat) : Option Kernel :=
  match k.frames pid with
  | none => some k
  | some .sleep => some (setFrame (delTimer k (.stack pid)) pid none)
  | some (.down sem wakeupFlags) => downResume k pid sem wakeupFlags

/-- A call by a process that does not run is no event of the system. -/
def step (k : Kernel) : Event → Option Kernel
  | .up pid sem => if ready k pid then up k sem else some k
  | .down pid sem => if ready k pid then some (down k pid sem) else some k
  | .tryDown pid sem => if ready k pid then some (tryDown k sem) else some k
  | .sleep pid time => if ready k pid then doSleep k pid time else some k
  | .resume pid => if awake k pid then resume k pid else some k
  | .kill pid => (doKill k pid).map Prod.fst
  | .tick => runTimerList k
  | .addTimer n pid expires => addTimer k ⟨.other n, pid, expires⟩
  | .delTimer n => some (delTimer k (.other n))

/-- Every process runs, and each semaphore is initialised with a value. -/
def boot (initial : Nat → Int) : Kernel where
  procs _ := ⟨.runnable, 0, false⟩
  frames _ := none
  timerList := []
  sems sem := ⟨initial sem, []⟩

end Ucore.Sched
