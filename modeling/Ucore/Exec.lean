import Ucore.Call
import Ucore.UserMem

/-! How `exec` passes arguments on, `kern/process/proc.c`: each is copied into a
buffer of the kernel, and from there onto the stack of the new address space.
What `sysfile_open` and `load_icode` do before that comes with the call. A
buffer is named by a number of its own, so a freed name is never seen again. -/
namespace Ucore.Exec
open Call UserMem
open Paging (pgsize usertop eInval eNoMem)

def execMaxArgNum : Int := 32
def execMaxArgLen : Nat := 4095
def procNameLen : Nat := 15
def ustacktop : Nat := usertop
def ustacksize : Nat := 256 * pgsize
def sizeofLong : Nat := 8

/-- `space` is the mm of the caller, `user` the bytes of the new address space.
`buffers` are the bytes of each buffer of the heap, `live` those not freed. -/
structure State where
  space : Option Mm
  next : Nat
  room : Nat → Bool
  live : Nat → Bool
  buffers : Nat → Nat → Nat
  user : Nat → Nat

/-! ## Buffers of the kernel -/

/-- `kmalloc(EXEC_MAX_ARG_LEN + 1)`. -/
def kmalloc : Call State (Option Nat) := do
  let state ← gets fun state => state
  modify fun state => { state with room := fun n => state.room (n + 1) }
  if state.room 0 then
    modify fun state => { state with live := Function.update state.live state.next true, next := state.next + 1 }
    return some state.next
  else return none

/-- A buffer that is free is not freed. -/
def kfree (buffer : Nat) : Call State Unit := do
  let state ← gets fun state => state
  assert (state.live buffer)
  modify fun state => { state with live := Function.update state.live buffer false }

/-- From the last buffer to the first. -/
def putKargv : List Nat → Call State Unit
  | [] => return ()
  | buffer :: kargv => do
    putKargv kargv
    kfree buffer

/-! ## Out of the old address space -/

/-- A word as its bytes give it, the lowest first. -/
def loadLong (bytes : Nat → Nat) (addr : Nat) : Nat :=
  word (Nat.ofDigits 256 ((List.range sizeofLong).map fun i => bytes (addr + i)))

def checkUser (addr len : Nat) (write : Bool) : Call State Bool := fun state =>
  (userMemCheck state.space addr len write).map fun (space, ok) => (.ok ok, { state with space })

/-- A pointer of the `len` bytes that are checked from `start` on. -/
def loadPointer (bytes : Nat → Nat) (start len addr : Nat) : Call State Nat := do
  let state ← gets fun state => state
  assert ((List.range sizeofLong).all fun i => (loadByte state.space bytes start len (addr + i)).isSome)
  return loadLong bytes addr

def copyIn (bytes : Nat → Nat) (buffer src maxn : Nat) : Call State Bool := fun state =>
  (copyString state.space bytes (state.buffers buffer) src maxn).map fun (space, dst, ok) =>
    (.ok ok, { state with space, buffers := Function.update state.buffers buffer dst })

/-- Into `local_name`; without a name the process is called by its pid. -/
def copyName (bytes : Nat → Nat) (name : Nat) : Call State Bool := fun state =>
  if name = 0 then some (.ok true, state)
  else (copyString state.space bytes (fun _ => 0) name (procNameLen + 1)).map fun (space, _, ok) =>
    (.ok ok, { state with space })

/-- The arguments that `kargv` does not hold yet. -/
def copyKargvLoop (bytes : Nat → Nat) (argc argv : Nat) : Nat → List Nat → Call State (List Nat)
  | 0, kargv => return kargv
  | more + 1, kargv => do
    match ← kmalloc with
    | none =>
      putKargv kargv
      fail (-eNoMem)
    | some buffer =>
      let src ← loadPointer bytes argv (sizeofLong * argc) (argv + sizeofLong * kargv.length)
      let ok ← copyIn bytes buffer src (execMaxArgLen + 1)
      if !ok then do
        kfree buffer
        putKargv kargv
        fail (-eInval)
      else copyKargvLoop bytes argc argv more (kargv ++ [buffer])

def copyKargv (bytes : Nat → Nat) (argc argv : Nat) : Call State (List Nat) := do
  let ok ← checkUser argv (sizeofLong * argc) false
  if !ok then fail (-eInval) else copyKargvLoop bytes argc argv argc []

/-! ## Onto the new stack -/

def onStack (addr : Nat) : Bool := ustacktop - ustacksize ≤ addr && addr < ustacktop

/-- `served` are the addresses whose page is there or comes with a page fault. -/
def storeByte (served : Nat → Bool) (addr byte : Nat) : Call State Unit := do
  assert (onStack addr && served addr)
  modify fun state => { state with user := Function.update state.user addr byte }

def storeLong (served : Nat → Bool) (addr value : Nat) : Call State Unit := do
  assert ((List.range sizeofLong).all fun i => onStack (addr + i) && served (addr + i))
  modify fun state => { state with user := fun other => if addr ≤ other && other < addr + sizeofLong then value / 256 ^ (other - addr) % 256 else state.user other }

/-- A load of the kernel from one of its buffers. -/
def bufferByte (buffer : Nat → Nat) (pos : Nat) : Option Nat :=
  if pos < execMaxArgLen + 1 then some (buffer pos) else none

def argLen (buffer : Nat) : Call State Nat := fun state =>
  (strnlen (bufferByte (state.buffers buffer)) 0 (execMaxArgLen + 1)).map fun len => (.ok len, state)

/-- From the byte `pos` of the buffer on; a load behind the buffer stops it. -/
def strcpy (served : Nat → Bool) (dst buffer : Nat) : Nat → Nat → Call State Unit
  | 0, _ => stop
  | more + 1, pos => do
    let state ← gets fun state => state
    storeByte served (dst + pos) (state.buffers buffer pos)
    if state.buffers buffer pos = 0 then return () else strcpy served dst buffer more (pos + 1)

/-- `argv_size` of all arguments. -/
def sizeLoop : List Nat → Nat → Call State Nat
  | [], argvSize => return argvSize
  | buffer :: kargv, argvSize => do
    let len ← argLen buffer
    sizeLoop kargv ((argvSize + len + 1) % 2 ^ 32)

/-- The arguments from number `i` on. -/
def placeLoop (served : Nat → Bool) (stacktop uargv : Nat) : List Nat → Nat → Nat → Call State Unit
  | [], _, _ => return ()
  | buffer :: kargv, i, argvSize => do
    strcpy served (stacktop + argvSize) buffer (execMaxArgLen + 1) 0
    storeLong served (uargv + sizeofLong * i) (stacktop + argvSize)
    let len ← argLen buffer
    placeLoop served stacktop uargv kargv (i + 1) ((argvSize + len + 1) % 2 ^ 32)

/-- The end of `load_icode`; the new stack pointer. -/
def setupArguments (served : Nat → Bool) (kargv : List Nat) : Call State Nat := do
  let argvSize ← sizeLoop kargv 0
  let stacktop := ustacktop - (argvSize / sizeofLong + 1) * sizeofLong
  let uargv := stacktop - kargv.length * sizeofLong
  placeLoop served stacktop uargv kargv 0 0
  storeLong served (uargv - sizeofLong) kargv.length
  return uargv - sizeofLong

/-! ## The call -/

/-- How `load_icode` gets to its arguments: not, through a failed assertion, or
with an address space of these bytes. -/
inductive Loaded where
  | failed (ret : Int)
  | panics
  | built (user : Nat → Nat) (served : Nat → Bool)

/-- `do_execve` returns an error, lets the process exit or starts the program. -/
inductive Outcome where
  | returned (ret : Int)
  | exits (ret : Int)
  | runs (sp : Nat)
  deriving DecidableEq

/-- `bytes` are those of the caller's address space; `opened` is an error of `sysfile_open`. -/
def doExecve (bytes : Nat → Nat) (name : Nat) (argc : Int) (argv : Nat) (opened : Option Int)
    (loaded : Loaded) : Call State Outcome := do
  if !(1 ≤ argc && argc ≤ execMaxArgNum) then return .returned (-eInval)
  else
    let named ← copyName bytes name
    if !named then return .returned (-eInval)
    else
      match ← attempt (copyKargv bytes argc.toNat argv) with
      | .error ret => return .returned ret
      | .ok kargv =>
        let _path ← loadPointer bytes argv (sizeofLong * argc.toNat) argv
        match opened, loaded with
        | some ret, _ =>
          putKargv kargv
          return .exits ret
        | none, .failed ret =>
          putKargv kargv
          return .exits ret
        | none, .panics => stop
        | none, .built user served =>
          modify fun state => { state with user }
          let sp ← setupArguments served kargv
          putKargv kargv
          return .runs sp

end Ucore.Exec
