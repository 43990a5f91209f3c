import Ucore.Runs
import Ucore.Semaphores

/-! The inodes of an SFS in memory, `kern/fs/sfs/sfs_inode.c` with `kern/fs/vfs/inode.c`, for
many processes. A process may block at the semaphore of the file system and at the disk; what
it does in between is one step, as nobody preempts the kernel. The blocks of the disk are left
out: an inode is known by the number of its block. -/
namespace Ucore.InodeCache
open Semaphores

/-- A `struct inode` with its `struct sfs_inode`. -/
structure Sin where
  ino : Nat
  refCount : Nat
  reclaimCount : Nat
  nlinks : Nat
  dirty : Bool

/-- Where a process is. -/
inductive Phase where
  /-- In none of these calls. -/
  | out
  /-- In `lock_sfs_fs` of `sfs_load_inode`. -/
  | loads (ino : Nat)
  /-- In `sfs_rbuf` of `sfs_load_inode`. -/
  | reads (ino : Nat)
  /-- In `lock_sfs_fs` of `sfs_reclaim`. -/
  | reclaims (ptr : Nat)
  /-- In `vop_truncate` of `sfs_reclaim`. -/
  | truncates (ptr : Nat)
  /-- In `vop_fsync` of `sfs_reclaim`. -/
  | syncs (ptr : Nat)
  deriving DecidableEq

structure Sfs (π : Type) where
  /-- The inodes by their addresses; there is none where the memory has been freed. -/
  mem : Nat → Option Sin
  inodeList : List Nat
  fsSem : State Unit π
  phase : π → Phase
  /-- How many references to the inode at an address a process has. -/
  held : π → Nat → Nat

section
variable {π : Type} [DecidableEq π] (sfs : Sfs π) (p : π)

namespace Sfs

def put (ptr : Nat) (sin : Option Sin) : Sfs π := { sfs with mem := Function.update sfs.mem ptr sin }

def goTo (phase : Phase) : Sfs π := { sfs with phase := Function.update sfs.phase p phase }

def hold (ptr n : Nat) : Sfs π := { sfs with held := Function.update sfs.held p (Function.update (sfs.held p) ptr n) }

end Sfs

/-- The process leaves the call. -/
def unlockSfsFs : Sfs π := ({ sfs with fsSem := up sfs.fsSem () } : Sfs π).goTo p .out

/-- `lock_sfs_fs`, with what the process does behind it. -/
def lockSfsFs (waits : Phase) (critical : Sfs π → Option (Sfs π)) : Option (Sfs π) :=
  let after : Sfs π := ({ sfs with fsSem := down sfs.fsSem p () } : Sfs π).goTo p waits
  if 0 < sfs.fsSem.value () then critical after else some after

/-! ## Loading -/

/-- `lookup_sfs_nolock` without its reference. -/
def findInode (ino : Nat) : Option Nat := sfs.inodeList.find? fun ptr => (sfs.mem ptr).any fun sin => sin.ino = ino

/-- The reference of `lookup_sfs_nolock`. -/
def refNolock (sin : Sin) : Sin :=
  { sin with
    refCount := sin.refCount + 1
    reclaimCount := if sin.refCount + 1 = 1 then sin.reclaimCount + 1 else sin.reclaimCount }

/-- Behind the lock of `sfs_load_inode`, with or without memory for a `struct sfs_disk_inode`. -/
def loadLocked (ino : Nat) (memory : Bool) : Option (Sfs π) :=
  match findInode sfs ino with
  | some ptr => do
    let sin ← sfs.mem ptr
    return unlockSfsFs ((sfs.put ptr (some (refNolock sin))).hold p ptr (sfs.held p ptr + 1)) p
  | none => return if memory then sfs.goTo p (.reads ino) else unlockSfsFs sfs p

/-- Behind `sfs_rbuf`: its error or that of `sfs_create_inode`, or what the disk has for the
link count and the address of the new inode. -/
def loadRead (ino : Nat) : Option (Nat × Nat) → Option (Sfs π)
  | none => return unlockSfsFs sfs p
  | some (nlinks, ptr) => do
    guard (nlinks ≠ 0)
    let linked : Sfs π := { sfs.put ptr (some ⟨ino, 1, 1, nlinks, false⟩) with inodeList := ptr :: sfs.inodeList }
    return unlockSfsFs (linked.hold p ptr (sfs.held p ptr + 1)) p

/-! ## Reclaiming -/

/-- Behind the checks of `sfs_reclaim`. -/
def reclaimFree (ptr : Nat) : Option (Sfs π) := do
  let sin ← sfs.mem ptr
  let unlinked := unlockSfsFs { sfs with inodeList := sfs.inodeList.erase ptr } p
  guard (sin.refCount = 0)
  return unlinked.put ptr none

def reclaimSync (ptr : Nat) : Option (Sfs π) := do
  let sin ← sfs.mem ptr
  if sin.dirty then return sfs.goTo p (.syncs ptr) else reclaimFree sfs p ptr

/-- Behind the lock of `sfs_reclaim`. -/
def reclaimLocked (ptr : Nat) : Option (Sfs π) := do
  let sin ← sfs.mem ptr
  guard (0 < sin.reclaimCount)
  let sin := { sin with reclaimCount := sin.reclaimCount - 1 }
  let sfs := sfs.put ptr (some sin)
  if sin.reclaimCount ≠ 0 || sin.refCount ≠ 0 then return unlockSfsFs sfs p
  else if sin.nlinks = 0 then return sfs.goTo p (.truncates ptr)
  else reclaimSync sfs p ptr

/-- Behind `vop_truncate`, which may have changed the inode. -/
def reclaimTruncated (ptr : Nat) (ok dirty : Bool) : Option (Sfs π) := do
  let sin ← sfs.mem ptr
  let sfs := sfs.put ptr (some { sin with dirty := dirty })
  if ok then reclaimSync sfs p ptr else return unlockSfsFs sfs p

/-- Behind `vop_fsync`. -/
def reclaimSynced (ptr : Nat) (ok : Bool) : Option (Sfs π) := do
  let sin ← sfs.mem ptr
  if ok then reclaimFree (sfs.put ptr (some { sin with dirty := false })) p ptr else return unlockSfsFs sfs p

def sfsReclaim (ptr : Nat) : Option (Sfs π) := lockSfsFs sfs p (.reclaims ptr) fun sfs => reclaimLocked sfs p ptr

/-- `inode_ref_dec`. -/
def inodeRefDec (ptr : Nat) : Option (Sfs π) := do
  let sin ← sfs.mem ptr
  guard (0 < sin.refCount)
  let sfs := (sfs.put ptr (some { sin with refCount := sin.refCount - 1 })).hold p ptr (sfs.held p ptr - 1)
  if sin.refCount - 1 = 0 then sfsReclaim sfs p ptr else return sfs

/-- `inode_ref_inc`, for the process that is to have the reference. -/
def inodeRefInc (ptr : Nat) : Option (Sfs π) := do
  let sin ← sfs.mem ptr
  return (sfs.put ptr (some { sin with refCount := sin.refCount + 1 })).hold p ptr (sfs.held p ptr + 1)

end

/-! ## Steps -/

inductive Event (π : Type) where
  | load (p : π) (ino : Nat) (memory : Bool)
  /-- A process that the semaphore was handed to goes on. -/
  | resume (p : π) (memory : Bool)
  /-- The read of an inode has ended. -/
  | read (p : π) (answer : Option (Nat × Nat))
  | truncated (p : π) (ok dirty : Bool)
  | synced (p : π) (ok : Bool)
  | refInc (p receiver : π) (ptr : Nat)
  | refDec (p : π) (ptr : Nat)
  /-- A process changes an inode that it has a reference to. -/
  | change (p : π) (ptr nlinks : Nat) (dirty : Bool)

def step {π : Type} [DecidableEq π] (sfs : Sfs π) : Event π → Option (Sfs π)
  | .load p ino memory => lockSfsFs sfs p (.loads ino) fun sfs => loadLocked sfs p ino memory
  | .resume p memory =>
    let sfs := { sfs with fsSem := resume sfs.fsSem p }
    match sfs.phase p with
    | .loads ino => loadLocked sfs p ino memory
    | .reclaims ptr => reclaimLocked sfs p ptr
    | _ => none
  | .read p answer =>
    match sfs.phase p with
    | .reads ino => loadRead sfs p ino answer
    | _ => none
  | .truncated p ok dirty =>
    match sfs.phase p with
    | .truncates ptr => reclaimTruncated sfs p ptr ok dirty
    | _ => none
  | .synced p ok =>
    match sfs.phase p with
    | .syncs ptr => reclaimSynced sfs p ptr ok
    | _ => none
  | .refInc _ receiver ptr => inodeRefInc sfs receiver ptr
  | .refDec p ptr => inodeRefDec sfs p ptr
  | .change _ ptr nlinks dirty => do
    let sin ← sfs.mem ptr
    return sfs.put ptr (some { sin with nlinks := nlinks, dirty := dirty })

/-- Nothing is in memory yet. -/
def mounted (π : Type) : Sfs π := ⟨fun _ => none, [], ⟨fun _ => 1, fun _ => [], fun _ => .free⟩, fun _ => .out, fun _ _ => 0⟩

/-- What a process and the disk may do. A process gives away only references that it has, memory that is
allocated was free, and an inode on the disk has a link. -/
def Possible {π : Type} (sfs : Sfs π) : Event π → Prop
  | .load p _ _ => sfs.phase p = .out
  | .resume p _ => sfs.fsSem.place p = .granted ()
  | .read p answer => (∃ ino, sfs.phase p = .reads ino) ∧ ∀ nlinks ptr, answer = some (nlinks, ptr) → nlinks ≠ 0 ∧ sfs.mem ptr = none
  | .truncated p _ _ => ∃ ptr, sfs.phase p = .truncates ptr
  | .synced p _ => ∃ ptr, sfs.phase p = .syncs ptr
  | .refInc p _ ptr => sfs.phase p = .out ∧ 0 < sfs.held p ptr
  | .refDec p ptr => sfs.phase p = .out ∧ 0 < sfs.held p ptr
  | .change p ptr _ _ => sfs.phase p = .out ∧ 0 < sfs.held p ptr

end Ucore.InodeCache
