import Ucore.SfsBitmap

/-! Mounting a disk: `sfs_do_mount` of `kern/fs/sfs/sfs_fs.c` under `vfs_mount` of
`kern/fs/vfs/vfsdev.c`. A block is its 1024 words of 32 bits; the device answers each
read or fails, and the heap meets each request or does not. -/
namespace Ucore.SfsMount
open Call KernelHeap SfsBitmap

def sfsMagic : Nat := 0x2f8dbe2a
def sfsBlksize : Nat := 4096
def sfsBlkbits : Nat := 32768
def sfsBlknSuper : Nat := 0
def sfsBlknFreemap : Nat := 2
def sfsHlistSize : Nat := 1024

def sizeofFs : Nat := 216
def sizeofListEntry : Nat := 16

def eInval : Int := 3
def eNoDev : Int := 13
def eNaDev : Int := 14
def eBusy : Int := 15

/-- `struct device`, with what is on the disk behind it. -/
structure Device where
  dBlocks : Nat
  dBlocksize : Nat
  content : Nat → Nat → BitVec 32

/-- `struct sfs_super`. The text is its eight words. -/
structure Super where
  magic : BitVec 32
  blocks : BitVec 32
  unusedBlocks : BitVec 32
  info : Nat → BitVec 32

/-- `struct fs` with the `struct sfs_fs` in it: the objects it is made of, the superblock
and the bitmap of free blocks. -/
structure Fs where
  object : Nat
  sfsBuffer : Nat
  hashList : Nat
  freemapObjects : Nat × Nat
  super : Super
  freemap : Bitmap

structure Vdev where
  devname : String
  device : Device
  fs : Option Fs
  mountable : Bool

structure State where
  heap : Heap
  /-- What the next reads of the device return. -/
  reads : Nat → Int
  vdevs : List Vdev

def onHeap {α : Type} (call : Call Heap α) : Call State α :=
  within State.heap (fun heap state => { state with heap := heap }) call

/-! ## Reading the disk -/

/-- `disk0_io` of one block, to an object from the byte `data` on. -/
def disk0Io (dev : Device) (offset object data : Nat) : Call State (Nat → BitVec 32) := do
  let blkno := uint32 (offset / sfsBlksize)
  if dev.dBlocks < uint32 (blkno + 1) then fail (-eInval)
  else
    let state ← gets fun state => state
    modify fun state => { state with reads := fun n => state.reads (n + 1) }
    if state.reads 0 ≠ 0 then fail (state.reads 0)
    else
      onHeap (inside object (data + sfsBlksize))
      return dev.content blkno

def sfsInitRead (dev : Device) (blkno object data : Nat) : Call State (Nat → BitVec 32) :=
  disk0Io dev (uint32 (blkno * sfsBlksize)) object data

/-- A block over the words of the map from byte `data` on. -/
def storeBlock (map : List (BitVec 32)) (data : Nat) (block : Nat → BitVec 32) : List (BitVec 32) :=
  map.mapIdx fun i word => if data ≤ 4 * i ∧ 4 * i < data + sfsBlksize then block (i - data / 4) else word

/-- The loop of `sfs_init_freemap`, with `nblks` blocks left. -/
def freemapLoop (dev : Device) (mapObject : Nat) : Nat → Nat → Nat → List (BitVec 32) → Call State (List (BitVec 32))
  | 0, _, _, map => return map
  | nblks + 1, blkno, data, map => do
    let block ← sfsInitRead dev blkno mapObject data
    freemapLoop dev mapObject nblks (blkno + 1) (data + sfsBlksize) (storeBlock map data block)

def sfsInitFreemap (dev : Device) (freemap : Bitmap) (mapObject blkno nblks : Nat) : Call State Bitmap := do
  assert (4 * freemap.nwords = uint32 (nblks * sfsBlksize))
  let map ← freemapLoop dev mapObject nblks blkno 0 freemap.map
  return { freemap with map := map }

/-! ## Mounting -/

/-- `ROUNDUP` of the number of blocks, as an unsigned number of 32 bits. -/
def sfsFreemapBits (super : Super) : BitVec 32 :=
  let up := super.blocks.toNat + sfsBlkbits - 1
  BitVec.ofNat 32 (up - up % sfsBlkbits)

def sfsFreemapBlocks (super : Super) : Nat := uint32 ((super.blocks.toNat + sfsBlkbits - 1) / sfsBlkbits)

/-- The superblock in the buffer; its text ends with a NUL. -/
def superOf (block : Nat → BitVec 32) : Super where
  magic := block 0
  blocks := block 1
  unusedBlocks := block 2
  info i := if i = 7 then block 10 &&& 0x00ffffff#32 else block (3 + i)

/-- The loop that counts the free blocks, with `more` bits left from `i` on. -/
def countFree (i unused : Nat) : Nat → Call Bitmap Nat
  | 0 => return unused
  | more + 1 => do
    if ← bitmapTest i then countFree (i + 1) (unused + 1) more
    else countFree (i + 1) unused more

def failedCleanupFs {α : Type} (fs : Nat) (ret : Int) : Call State α := do
  onHeap (kfree fs)
  fail ret

def failedCleanupSfsBuffer {α : Type} (fs sfsBuffer : Nat) (ret : Int) : Call State α := do
  onHeap (kfree sfsBuffer)
  failedCleanupFs fs ret

def failedCleanupHashList {α : Type} (fs sfsBuffer hashList : Nat) (ret : Int) : Call State α := do
  onHeap (kfree hashList)
  failedCleanupSfsBuffer fs sfsBuffer ret

def failedCleanupFreemap {α : Type} (fs sfsBuffer hashList object mapObject : Nat) (ret : Int) : Call State α := do
  onHeap (bitmapDestroy object mapObject)
  failedCleanupHashList fs sfsBuffer hashList ret

/-- From `bitmap_create` on. -/
def loadFreemap (dev : Device) (fs sfsBuffer hashList : Nat) (super : Super) : Call State Fs := do
  match ← onHeap (bitmapCreate (sfsFreemapBits super)) with
  | none => failedCleanupHashList fs sfsBuffer hashList (-eNoMem)
  | some (freemap, object, mapObject) =>
    match ← attempt (sfsInitFreemap dev freemap mapObject sfsBlknFreemap (sfsFreemapBlocks super)) with
    | .error ret => failedCleanupFreemap fs sfsBuffer hashList object mapObject ret
    | .ok freemap =>
      let unused ← within (fun _ => freemap) (fun _ state => state) (countFree 0 0 (sfsFreemapBits super).toNat)
      assert (unused = super.unusedBlocks.toNat)
      return ⟨fs, sfsBuffer, hashList, (object, mapObject), super, freemap⟩

def sfsDoMount (dev : Device) : Call State Fs := do
  if dev.dBlocksize ≠ sfsBlksize then fail (-eNaDev)
  else
    match ← onHeap (kmalloc sizeofFs) with
    | none => fail (-eNoMem)
    | some fs =>
      match ← onHeap (kmalloc sfsBlksize) with
      | none => failedCleanupFs fs (-eNoMem)
      | some sfsBuffer =>
        match ← attempt (sfsInitRead dev sfsBlknSuper sfsBuffer 0) with
        | .error ret => failedCleanupSfsBuffer fs sfsBuffer ret
        | .ok block =>
          let super := superOf block
          if super.magic.toNat ≠ sfsMagic then failedCleanupSfsBuffer fs sfsBuffer (-eInval)
          else if dev.dBlocks < super.blocks.toNat then failedCleanupSfsBuffer fs sfsBuffer (-eInval)
          else
            match ← onHeap (kmalloc (sizeofListEntry * sfsHlistSize)) with
            | none => failedCleanupSfsBuffer fs sfsBuffer (-eNoMem)
            | some hashList =>
              onHeap (inside hashList (sizeofListEntry * sfsHlistSize))
              loadFreemap dev fs sfsBuffer hashList super

/-! ## The devices -/

/-- The place of a mountable device in the list. -/
def findMount (devname : String) : Call State Nat := do
  let state ← gets fun state => state
  match state.vdevs.findIdx? fun vdev => vdev.mountable && vdev.devname = devname with
  | none => fail (-eNoDev)
  | some i => return i

/-- `vfs_mount`, with the list of devices locked. -/
def vfsMount (devname : String) (mountfunc : Device → Call State Fs) : Call State Unit := do
  let i ← findMount devname
  let state ← gets fun state => state
  match state.vdevs[i]? with
  | none => stop
  | some vdev =>
    if vdev.fs.isSome then fail (-eBusy)
    else
      let fs ← mountfunc vdev.device
      modify fun state => { state with vdevs := state.vdevs.set i { vdev with fs := some fs } }

def sfsMount (devname : String) : Call State Unit := vfsMount devname sfsDoMount

end Ucore.SfsMount
