import Ucore.UserMem

/-! `sysfile_read` and `sysfile_write` of `kern/fs/sysfile.c` over `file_read` and
`file_write` of `kern/fs/file.c`. What an inode does comes with the operations of
its file system; a call on it has returned when the loop goes on. `none` is a
loop that is not over after so many turns, or a failed assertion. -/
namespace Ucore.SysFile
open UserMem
open Paging (eInval eNoMem)

def iobufSize : Nat := 4096
def filesStructNentry : Int := 72

/-- `struct _kpu_buff`. -/
def sizeofKpuBuff : Nat := 48

/-- An entry of `fd_array` that is `FD_OPENED`. -/
structure File where
  node : Nat
  pos : Int
  readable : Bool
  writable : Bool

/-- `vop_read` and `vop_write` of all inodes, by inode and offset: the error code,
and what the `iobuf` has given out or taken. -/
structure Vops (δ : Type) where
  read : Nat → Int → Nat → δ → δ × Int × List Nat
  write : Nat → Int → List Nat → δ → δ × Int × Nat

/-- `user` are the bytes of the address space. -/
structure State (δ : Type) where
  space : Option Mm
  user : Nat → Nat
  fdArray : Int → Option File
  disk : δ

variable {δ : Type} (vops : Vops δ)

def testfd (fd : Int) : Bool := 0 ≤ fd && fd < filesStructNentry

def fd2file (state : State δ) (fd : Int) : Option File := if testfd fd then state.fdArray fd else none

def fileTestfd (state : State δ) (fd : Int) (readable writable : Bool) : Bool :=
  match fd2file state fd with
  | none => false
  | some file => (!readable || file.readable) && (!writable || file.writable)

def setFile (state : State δ) (fd : Int) (file : File) : State δ :=
  { state with fdArray := Function.update state.fdArray fd (some file) }

/-- The error code and `copied`; the bytes read go to the start of `base`. -/
def fileRead (state : State δ) (fd : Int) (base : Nat → Nat) (len : Nat) :
    State δ × (Nat → Nat) × Int × Nat :=
  match fd2file state fd with
  | none => (state, base, -eInval, 0)
  | some file =>
    if !file.readable then (state, base, -eInval, 0)
    else
      let (disk, ret, data) := vops.read file.node file.pos len state.disk
      let base := fun i => if i < data.length then data.getD i 0 else base i
      let state := setFile { state with disk } fd { file with pos := file.pos + data.length }
      (state, base, ret, if fd = 2 then sizeofKpuBuff else data.length)

def fileWrite (state : State δ) (fd : Int) (base : Nat → Nat) (len : Nat) : State δ × Int × Nat :=
  match fd2file state fd with
  | none => (state, -eInval, 0)
  | some file =>
    if !file.writable then (state, -eInval, 0)
    else
      let (disk, ret, used) := vops.write file.node file.pos ((List.range len).map base) state.disk
      (setFile { state with disk } fd { file with pos := file.pos + used }, ret, used)

/-- A `size_t` as the `int` that is returned. -/
def toInt (n : Nat) : Int := (BitVec.ofNat 32 n).toInt

/-- From `out` on. -/
def finish (state : State δ) (copied : Nat) (ret : Int) : State δ × Int :=
  (state, if copied ≠ 0 then toInt copied else ret)

/-- `buffer` is the memory of the kernel from the buffer of `IOBUF_SIZE` bytes on. -/
def readLoop (fd : Int) : Nat → State δ → (Nat → Nat) → Nat → Nat → Nat → Option (State δ × Int)
  | 0, _, _, _, _, _ => none
  | turns + 1, state, buffer, base, len, copied =>
    if len = 0 then some (finish state copied 0)
    else
      let alen := if len < iobufSize then len else iobufSize
      let (state, buffer, ret, alen) := fileRead vops state fd buffer alen
      let alen := if fd = 2 then len else alen
      if alen ≠ 0 then do
        let (space, user, ok) ← copyToUser state.space state.user buffer base alen
        let state := { state with space, user }
        if ok then
          if len < alen then none
          else if ret ≠ 0 then some (finish state (copied + alen) ret)
          else readLoop fd turns state buffer (word (base + alen)) (len - alen) (copied + alen)
        else some (finish state copied (if ret = 0 then -eInval else ret))
      else some (finish state copied ret)

/-- `room` is whether `kmalloc` has a buffer, `buffer` the bytes that stand there. -/
def sysfileRead (turns : Nat) (room : Bool) (buffer : Nat → Nat) (state : State δ) (fd : Int)
    (base len : Nat) : Option (State δ × Int) :=
  if len = 0 then some (state, 0)
  else if !fileTestfd state fd true false then some (state, -eInval)
  else if !room then some (state, -eNoMem)
  else readLoop vops fd turns state buffer base len 0

def writeLoop (fd : Int) : Nat → State δ → (Nat → Nat) → Nat → Nat → Nat → Option (State δ × Int)
  | 0, _, _, _, _, _ => none
  | turns + 1, state, buffer, base, len, copied =>
    if len = 0 then some (finish state copied 0)
    else do
      let alen := if len < iobufSize then len else iobufSize
      let (space, buffer, ok) ← copyFromUser state.space state.user buffer base alen false
      let state := { state with space }
      if !ok then some (finish state copied (-eInval))
      else if fd = 1 || fd = 2 then
        let (state, ret, alen) := fileWrite vops state fd buffer alen
        if len < alen then none
        else if ret ≠ 0 || alen = 0 then some (finish state (copied + alen) ret)
        else writeLoop fd turns state buffer (word (base + alen)) (len - alen) (copied + alen)
      else
        -- neither branch has written: nothing has changed but the buffer
        writeLoop fd turns state buffer base len copied

def sysfileWrite (turns : Nat) (room : Bool) (buffer : Nat → Nat) (state : State δ) (fd : Int)
    (base len : Nat) : Option (State δ × Int) :=
  if len = 0 then some (state, 0)
  else if !fileTestfd state fd false true then some (state, -eInval)
  else if !room then some (state, -eNoMem)
  else writeLoop vops fd turns state buffer base len 0

end Ucore.SysFile
