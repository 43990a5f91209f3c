import Ucore.SfsVolume

/-! Listing a directory: `sfs_getdirentry` of `kern/fs/sfs/sfs_inode.c` below
`file_getdirentry` of `kern/fs/file.c`. The offset counts the entries in use, in
steps of the size of a name. -/
namespace Ucore.Sfs
open Call

/-- `sfs_dentry_size`, the size of a name, and of the name in a `struct dirent`. -/
def dentrySize : Nat := 256

/-- Conversion to `int`. -/
def toInt32 (n : Int) : Int := n.bmod (2 ^ 32)

/-- The loop over the slots from `i` on, `more` of them left. -/
def getdirentrySub (slot : Int) (i : Nat) : Nat → Call Node Dirent
  | 0 => fail (-eNoEnt)
  | more + 1 => do
    let entry ← direntRead i
    if entry.ino ≠ 0 then
      if slot = 0 then return entry
      else getdirentrySub (slot - 1) (i + 1) more
    else getdirentrySub slot (i + 1) more

/-- The name of the entry and how much of the buffer of `resid` bytes it takes. The number
of blocks has no sign, and neither has the slot it is compared with. -/
def sfsGetdirentry (dir : Nat) (offset : Int) (resid : Nat) : Call Volume (List UInt8 × Nat) := do
  vopCheck dir dirOnly
  let got ← kmalloc
  if !got then fail (-eNoMem)
  else
    let inode ← getInode dir
    let slot := toInt32 (offset / dentrySize)
    if offset < 0 || offset % dentrySize ≠ 0 then fail (-eInval)
    else if (inode.din.blocks : Int) < slot % 2 ^ 32 then fail (-eNoEnt)
    else
      let entry ← onInode dir (getdirentrySub slot 0 (toInt32 inode.din.blocks).toNat)
      if min resid dentrySize = dentrySize then return (entry.name, dentrySize) else fail (-eNoMem)

/-- The name and the next offset. -/
def fileGetdirentry (dir : Nat) (offset : Int) : Call Volume (List UInt8 × Int) := do
  let (name, used) ← sfsGetdirentry dir offset dentrySize
  return (name, toOff (offset + used))

/-- A program that reads entries until a call fails: the names, and the error if it came. -/
def enumerate (dir : Nat) : Nat → Int → Call Volume (List (List UInt8) × Option Int)
  | 0, _ => return ([], none)
  | turns + 1, offset => do
    match ← attempt (fileGetdirentry dir offset) with
    | .error ret => return ([], some ret)
    | .ok (name, next) =>
      let (names, ending) ← enumerate dir turns next
      return (name :: names, ending)

end Ucore.Sfs
