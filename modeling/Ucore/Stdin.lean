import Ucore.Runs

/-! The keyboard device, `kern/fs/devs/dev_stdin.c`, with the wait queue of
`kern/sync/wait.c` that its readers sleep in. A reader runs with interrupts off
from one call of `schedule` to its next, as one step. Positions are signed words
of 64 bits and the count of a read is one of 32. `none` is an access outside the
buffer. -/
namespace Ucore.Stdin

def stdinBufsize : Nat := 4096

def wtInterrupted : Nat := 0x80000000
def wtKbd : Nat := 0x00000004 ||| wtInterrupted

/-- A call of `dev_stdin_read` that has not returned: what it has stored so far, and
whether it sleeps in `schedule`. -/
structure Reader where
  len : Nat
  buf : List UInt8
  asleep : Bool
  wakeupFlags : Nat

/-- A character that a reader stores, and the `p_rpos` at which it finds it. -/
structure Delivery where
  proc : Nat
  position : Int
  char : UInt8

/-- The static variables of the device, and the history of the characters that have
advanced `p_wpos` and of those that readers have stored. -/
structure Device where
  stdinBuffer : Fin stdinBufsize → UInt8
  pRpos : Int
  pWpos : Int
  accepted : List UInt8
  deliveries : List Delivery

/-- The device with its readers and the values of the calls that returned. -/
structure State extends Device where
  waitQueue : List Nat
  readers : Nat → Option Reader
  exiting : Nat → Bool
  returned : List (Nat × Int)

def wrap (pos : Int) : Int := pos.bmod (2 ^ 64)

/-- The slot of a position; a negative remainder has none. -/
def slot (pos : Int) : Option (Fin stdinBufsize) :=
  if low : 0 ≤ pos.tmod stdinBufsize then
    some ⟨(pos.tmod stdinBufsize).toNat, by
      have high := Int.tmod_lt_of_pos pos (show (0 : Int) < stdinBufsize by decide)
      omega⟩
  else none

def Device.charAt (device : Device) (pos : Int) : Option UInt8 := (slot pos).map device.stdinBuffer

def devStdinWrite (device : Device) (c : UInt8) : Option Device :=
  if c = 0 then some device
  else do
    let index ← slot device.pWpos
    let stored := { device with stdinBuffer := Function.update device.stdinBuffer index c }
    if wrap (device.pWpos - device.pRpos) < stdinBufsize then
      return { stored with pWpos := wrap (device.pWpos + 1), accepted := device.accepted ++ [c] }
    else return stored

/-! ## Reading -/

/-- `ret < len`, where the count becomes a word without a sign. -/
def Reader.wants (reader : Reader) : Bool := (Int.bmod reader.buf.length (2 ^ 32)) % 2 ^ 64 < (reader.len : Int)

def Device.deliver (device : Device) (proc : Nat) (char : UInt8) : Device :=
  { device with
    pRpos := wrap (device.pRpos + 1)
    deliveries := device.deliveries ++ [⟨proc, device.pRpos, char⟩] }

/-- The loop up to its end, or up to where the reader has to sleep (then `true`). -/
def fill (proc : Nat) : Nat → Device → Reader → Option (Device × Reader × Bool)
  | 0, _, _ => none
  | turns + 1, device, reader =>
    if reader.wants then
      if device.pRpos < device.pWpos then do
        let char ← device.charAt device.pRpos
        fill proc turns (device.deliver proc char) { reader with buf := reader.buf ++ [char] }
      else some (device, reader, true)
    else some (device, reader, false)

def waitCurrentSet (state : State) (proc : Nat) (reader : Reader) : State :=
  { state with
    waitQueue := state.waitQueue ++ [proc]
    readers := Function.update state.readers proc (some { reader with asleep := true, wakeupFlags := wtInterrupted }) }

def finish (state : State) (proc : Nat) (reader : Reader) : State :=
  { state with
    readers := Function.update state.readers proc none
    returned := state.returned ++ [(proc, Int.bmod reader.buf.length (2 ^ 32))] }

/-- No turn of the loop comes without a character or the loop's end. -/
def devStdinRead (state : State) (proc : Nat) (reader : Reader) : Option State := do
  let (device, reader, sleeps) ← fill proc ((state.pWpos - state.pRpos).toNat + 1) state.toDevice reader
  let state := { state with toDevice := device }
  return if sleeps then waitCurrentSet state proc reader else finish state proc reader

def waitCurrentDel (state : State) (proc : Nat) : State := { state with waitQueue := state.waitQueue.erase proc }

/-- A reader comes back from `schedule`. -/
def resume (state : State) (proc : Nat) (reader : Reader) : Option State :=
  let state := waitCurrentDel state proc
  if reader.wakeupFlags = wtKbd then devStdinRead state proc reader else some (finish state proc reader)

/-! ## The system -/

def wakeupProc (state : State) (proc : Nat) : State :=
  { state with readers := Function.update state.readers proc ((state.readers proc).map fun reader => { reader with asleep := false }) }

def wakeupWait (state : State) (proc : Nat) : State :=
  let state := wakeupProc state proc
  { state with readers := Function.update state.readers proc ((state.readers proc).map fun reader => { reader with wakeupFlags := wtKbd }) }

def wakeupQueue (state : State) : State := { state.waitQueue.foldl wakeupWait state with waitQueue := [] }

def inputWakeup (state : State) : State :=
  if state.pRpos < state.pWpos ∧ state.waitQueue ≠ [] then wakeupQueue state else state

/-- `do_kill`, for what a reader notices of it. -/
def kill (state : State) (proc : Nat) : State :=
  if state.exiting proc then state
  else wakeupProc { state with exiting := Function.update state.exiting proc true } proc

inductive Event where
  /-- `dev_intr` hands over a character. -/
  | char (c : UInt8)
  | tick
  | kill (proc : Nat)
  /-- Another part of the kernel wakes the process. -/
  | wake (proc : Nat)
  /-- A process that is in no read starts one. -/
  | read (proc : Nat) (len : Nat)
  /-- A reader that does not sleep is scheduled. -/
  | schedule (proc : Nat)

/-- An event that cannot happen in a state changes nothing. -/
def step (state : State) : Event → Option State
  | .char c => (devStdinWrite state.toDevice c).map fun device => { state with toDevice := device }
  | .tick => some (inputWakeup state)
  | .kill proc => some (kill state proc)
  | .wake proc => some (wakeupProc state proc)
  | .read proc len => match state.readers proc with
    | none => devStdinRead state proc ⟨len, [], false, 0⟩
    | some _ => some state
  | .schedule proc => match state.readers proc with
    | none => some state
    | some reader => if reader.asleep then some state else resume state proc reader

/-- After `stdin_device_init`. -/
def boot : State where
  stdinBuffer := fun _ => 0
  pRpos := 0
  pWpos := 0
  waitQueue := []
  readers := fun _ => none
  exiting := fun _ => false
  accepted := []
  deliveries := []
  returned := []

end Ucore.Stdin
