import Ucore.SfsDirectory

/-! The path of a directory, `sfs_namefile` of `kern/fs/sfs/sfs_inode.c`. It goes
up by `..` and writes the names from the end of the buffer on backwards; what it
has written is then moved to the front. -/
namespace Ucore.Sfs
open Call

/-- A `struct iobuf` on the buffer of the caller. -/
structure Iobuf where
  base : Nat
  offset : Int
  resid : Nat

/-- The volume, and the entry buffers that are held. -/
structure Naming where
  vol : Volume
  entries : Nat

def onVolume {α : Type} (call : Call Volume α) : Call Naming α :=
  within Naming.vol (fun vol naming => { naming with vol := vol }) call

def kmallocEntry : Call Naming Bool := do
  let got ← onVolume kmalloc
  if got then modify fun naming => { naming with entries := naming.entries + 1 }
  return got

def kfreeEntry : Call Naming Unit := do
  let naming ← gets fun naming => naming
  assert (0 < naming.entries)
  modify fun naming => { naming with entries := naming.entries - 1 }

/-- These bytes in the buffer, from a position on. -/
def stored (buf : Nat → UInt8) (pos : Nat) (bytes : List UInt8) : Nat → UInt8 := fun i =>
  if pos ≤ i then bytes.getD (i - pos) (buf i) else buf i

def store (pos : Nat) (bytes : List UInt8) : Call Naming Unit :=
  onVolume (modify fun vol => { vol with buf := stored vol.buf pos bytes })

/-- `n` bytes of the buffer, moved to another position in it. -/
def moved (buf : Nat → UInt8) (dst src n : Nat) : Nat → UInt8 := fun i =>
  if dst ≤ i ∧ i < dst + n then buf (src + (i - dst)) else buf i

def memmove (dst src n : Nat) : Call Naming Unit :=
  onVolume (modify fun vol => { vol with buf := moved vol.buf dst src n })

def iobufSkip (iob : Iobuf) (n : Nat) : Call Naming Iobuf := do
  assert (n ≤ iob.resid)
  return ⟨iob.base + n, toOff (iob.offset + n), iob.resid - n⟩

/-- `..` -/
def dotdot : List UInt8 := [0x2e, 0x2e]

def slash : UInt8 := 0x2f

/-- The loop over the slots, `more` of them left. -/
def direntFindino (ino slot : Nat) : Nat → Call Node Dirent
  | 0 => fail (-eNoEnt)
  | more + 1 => do
    let entry ← direntRead slot
    if entry.ino = ino then return entry
    else direntFindino ino (slot + 1) more

def sfsDirentFindino (dir ino : Nat) : Call Volume Dirent := do
  let inode ← getInode dir
  onInode dir (direntFindino ino 0 (toInt32 inode.din.blocks).toNat)

/-- The exit at `failed`. -/
def namefileFailed {α : Type} (node : Nat) (ret : Int) : Call Naming α := do
  onVolume (inodeRefDec node)
  kfreeEntry
  fail ret

/-- At most `turns` turns of the loop: where the names begin in the end, and what is left of the buffer. -/
def namefileLoop : Nat → Nat → Nat → Nat → Call Naming (Nat × Nat)
  | 0, _, _, _ => stop
  | turns + 1, node, ptr, resid => do
    match ← onVolume (attempt (sfsLookupOnce node dotdot)) with
    | .error ret => namefileFailed node ret
    | .ok parent =>
      onVolume (inodeRefDec node)
      if node = parent then
        onVolume (inodeRefDec node)
        return (ptr, resid)
      else
        let inode ← onVolume (getInode parent)
        assert (node ≠ parent && inode.din.type = .dir)
        match ← onVolume (attempt (sfsDirentFindino parent node)) with
        | .error ret => namefileFailed parent ret
        | .ok entry =>
          let alen := entry.name.length + 1
          if resid < alen then namefileFailed parent (-eNoMem)
          else
            store (ptr - alen) (entry.name ++ [slash])
            namefileLoop turns parent (ptr - alen) (resid - alen)

def sfsNamefile (turns node : Nat) (iob : Iobuf) : Call Naming Iobuf := do
  if iob.resid ≤ 2 then fail (-eNoMem)
  else
    let got ← kmallocEntry
    if !got then fail (-eNoMem)
    else
      onVolume (inodeRefInc node)
      let (ptr, resid) ← namefileLoop turns node (iob.base + iob.resid) (iob.resid - 2)
      let alen := iob.resid - resid - 2
      memmove (iob.base + 1) ptr alen
      store iob.base [slash]
      store (iob.base + 1 + alen) [0]
      let iob ← iobufSkip iob alen
      kfreeEntry
      return iob

end Ucore.Sfs
