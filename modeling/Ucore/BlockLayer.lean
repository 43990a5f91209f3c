import Ucore.Interleaving
import Ucore.Sfs

/-! The block layer of SFS, `kern/fs/sfs/sfs_io.c`, on top of `disk0`, `kern/fs/devs/dev_disk0.c`,
which moves data with `kern/fs/iobuf.c`. Memory is copied byte by byte and another process may come
between any two bytes: nothing but the two semaphores keeps the processes apart. The sector driver
stores whole sectors and returns what it has stored; `kern/driver/ide.c` in front of it checks the
numbers of sectors. A copy beyond the end of an object stops the system. -/
namespace Ucore.BlockLayer
open Interleaving
open Interleaving.Thread (assert change)

def sectsize : Nat := 512
def maxNsecs : Nat := 128
def maxDiskNsecs : Nat := 0x10000000
def disk0Blksize : Nat := 4096
def disk0Bufsize : Nat := 4 * disk0Blksize
def disk0BlkNsect : Nat := disk0Blksize / sectsize
def sfsBlksize : Nat := 4096
def sfsBlknSuper : Nat := 0
/-- `sizeof(struct sfs_super)`. -/
def superSize : Nat := 44

def eInval : Int := 3
def eNoMem : Int := 4

def uint32 (n : Int) : Nat := (n % 2 ^ 32).toNat

/-! ## Memory -/

abbrev Bytes := Nat → UInt8

/-- What the processes share. -/
structure Memory where
  disk : Bytes
  disk0Buffer : Bytes
  sfsBuffer : Bytes

/-- The memory that a caller passes. -/
structure Buffer where
  size : Nat
  bytes : Bytes

inductive Sem where
  | ioSem
  | disk0Sem
  deriving DecidableEq

abbrev Task := Thread Sem (Memory × Buffer)

inductive Object where
  | disk
  | disk0Buffer
  | sfsBuffer
  | buffer
  deriving DecidableEq

structure Pointer where
  object : Object
  place : Nat

def Pointer.skip (pointer : Pointer) (n : Nat) : Pointer := { pointer with place := pointer.place + n }

/-- `disk0`, of a size that the sector driver takes. -/
structure Device where
  sectors : Nat
  served : sectors ≤ maxDiskNsecs

/-- `d_blocks`. -/
def Device.dBlocks (dev : Device) : Nat := dev.sectors / disk0BlkNsect

def bytesOf (state : Memory × Buffer) : Object → Bytes
  | .disk => state.1.disk
  | .disk0Buffer => state.1.disk0Buffer
  | .sfsBuffer => state.1.sfsBuffer
  | .buffer => state.2.bytes

def put (bytes : Bytes) (state : Memory × Buffer) : Object → Memory × Buffer
  | .disk => ({ state.1 with disk := bytes }, state.2)
  | .disk0Buffer => ({ state.1 with disk0Buffer := bytes }, state.2)
  | .sfsBuffer => ({ state.1 with sfsBuffer := bytes }, state.2)
  | .buffer => (state.1, { state.2 with bytes := bytes })

section
variable (dev : Device)

def sizeOf (state : Memory × Buffer) : Object → Nat
  | .disk => dev.sectors * sectsize
  | .disk0Buffer => disk0Bufsize
  | .sfsBuffer => sfsBlksize
  | .buffer => state.2.size

def inObject (state : Memory × Buffer) (pointer : Pointer) : Bool := pointer.place < sizeOf dev state pointer.object

def storeByte (dst : Pointer) (byte : UInt8) (state : Memory × Buffer) : Memory × Buffer :=
  put (Function.update (bytesOf state dst.object) dst.place byte) state dst.object

/-- `memmove` and `memcpy`, of objects that do not overlap. -/
def memmove (dst src : Pointer) : Nat → Task Unit
  | 0 => return ()
  | n + 1 => do
    change (fun state => inObject dev state dst && inObject dev state src) fun state =>
      storeByte dst (bytesOf state src.object src.place) state
    memmove (dst.skip 1) (src.skip 1) n

def memset (dst : Pointer) (byte : UInt8) : Nat → Task Unit
  | 0 => return ()
  | n + 1 => do
    change (fun state => inObject dev state dst) (storeByte dst byte)
    memset (dst.skip 1) byte n

/-! ## The buffer of a transfer -/

structure Iobuf where
  base : Pointer
  offset : Int
  len : Nat
  resid : Nat

def iobufInit (base : Pointer) (len : Nat) (offset : Int) : Iobuf := ⟨base, offset, len, len⟩

def iobufSkip (iob : Iobuf) (n : Nat) : Task Iobuf := do
  assert (n ≤ iob.resid)
  return { iob with base := iob.base.skip n, offset := iob.offset + n, resid := iob.resid - n }

/-- The result, the buffer behind the move and `*copiedp`. -/
def iobufMove (iob : Iobuf) (data : Pointer) (len : Nat) (m2b : Bool) : Task (Int × Iobuf × Nat) := do
  let alen := min iob.resid len
  if 0 < alen then
    memmove dev (if m2b then iob.base else data) (if m2b then data else iob.base) alen
    let iob ← iobufSkip iob alen
    return (if len - alen = 0 then 0 else -eNoMem, iob, alen)
  else return (if len = 0 then 0 else -eNoMem, iob, alen)

/-! ## The device -/

/-- The checks of `ide_read_secs` and `ide_write_secs`. -/
def ideCheck (secno nsecs : Nat) : Task Unit := do
  assert (nsecs ≤ maxNsecs)
  assert (secno < maxDiskNsecs && secno + nsecs ≤ maxDiskNsecs)

def ideReadSecs (secno : Nat) (dst : Pointer) (nsecs : Nat) : Task Unit := do
  ideCheck secno nsecs
  memmove dev dst ⟨.disk, secno * sectsize⟩ (nsecs * sectsize)

def ideWriteSecs (secno : Nat) (src : Pointer) (nsecs : Nat) : Task Unit := do
  ideCheck secno nsecs
  memmove dev ⟨.disk, secno * sectsize⟩ src (nsecs * sectsize)

def lockDisk0 : Task Unit := .down .disk0Sem (.ret ())
def unlockDisk0 : Task Unit := .up .disk0Sem (.ret ())

def disk0Buffer : Pointer := ⟨.disk0Buffer, 0⟩

def disk0ReadBlksNolock (blkno nblks : Nat) : Task Unit :=
  ideReadSecs dev (uint32 (blkno * disk0BlkNsect)) disk0Buffer (uint32 (nblks * disk0BlkNsect))

def disk0WriteBlksNolock (blkno nblks : Nat) : Task Unit :=
  ideWriteSecs dev (uint32 (blkno * disk0BlkNsect)) disk0Buffer (uint32 (nblks * disk0BlkNsect))

/-- The loop of `disk0_io`, which goes around once for each block at most. -/
def disk0Loop (write : Bool) : Nat → Nat → Nat → Iobuf → Task Iobuf
  | 0, resid, _, iob => if resid = 0 then return iob else .stop
  | rounds + 1, resid, blkno, iob => do
    if resid = 0 then return iob
    else if write then
      let (_, iob, copied) ← iobufMove dev iob disk0Buffer disk0Bufsize false
      assert (copied ≠ 0 && copied ≤ resid && copied % disk0Blksize = 0)
      let nblks := uint32 (copied / disk0Blksize)
      disk0WriteBlksNolock dev blkno nblks
      disk0Loop write rounds (resid - copied) (uint32 (blkno + nblks)) iob
    else
      let alen := min disk0Bufsize resid
      let nblks := uint32 (alen / disk0Blksize)
      disk0ReadBlksNolock dev blkno nblks
      let (_, iob, copied) ← iobufMove dev iob disk0Buffer alen true
      assert (copied = alen && copied % disk0Blksize = 0)
      disk0Loop write rounds (resid - copied) (uint32 (blkno + nblks)) iob

/-- The result and the buffer behind the transfer. Division of the offset is that of a signed number. -/
def disk0Io (iob : Iobuf) (write : Bool) : Task (Int × Iobuf) := do
  let blkno := uint32 (iob.offset.tdiv disk0Blksize)
  let nblks := uint32 (iob.resid / disk0Blksize)
  if iob.offset.tmod disk0Blksize ≠ 0 || iob.resid % disk0Blksize ≠ 0 then return (-eInval, iob)
  else if dev.dBlocks < uint32 (blkno + nblks) then return (-eInval, iob)
  else if nblks = 0 then return (0, iob)
  else
    lockDisk0
    let iob ← disk0Loop dev write (iob.resid / disk0Blksize) iob.resid blkno iob
    unlockDisk0
    return (0, iob)

end

/-! ## The blocks of the file system -/

/-- `struct sfs_fs`, mounted on a device with at least the blocks of the superblock. -/
structure SfsFs where
  dev : Device
  superBlocks : Nat
  mounted : superBlocks ≤ dev.dBlocks

def lockSfsIo : Task Unit := .down .ioSem (.ret ())
def unlockSfsIo : Task Unit := .up .ioSem (.ret ())

def sfsBuffer : Pointer := ⟨.sfsBuffer, 0⟩

section
variable (sfs : SfsFs)

/-- `blkno * SFS_BLKSIZE` is a product of 32-bit numbers. -/
def sfsRwblockNolock (buf : Pointer) (blkno : Nat) (write check : Bool) : Task Int := do
  assert ((blkno ≠ 0 || !check) && blkno < sfs.superBlocks)
  let (ret, _) ← disk0Io sfs.dev (iobufInit buf sfsBlksize (uint32 (blkno * sfsBlksize))) write
  return ret

/-- The loop of `sfs_rwblock`. -/
def rwblockLoop (write : Bool) : Nat → Pointer → Nat → Task Int
  | 0, _, _ => return 0
  | nblks + 1, buf, blkno => do
    let ret ← sfsRwblockNolock sfs buf blkno write true
    if ret ≠ 0 then return ret
    else rwblockLoop write nblks (buf.skip sfsBlksize) (uint32 (blkno + 1))

def sfsRwblock (buf : Pointer) (blkno nblks : Nat) (write : Bool) : Task Int := do
  lockSfsIo
  let ret ← rwblockLoop sfs write nblks buf blkno
  unlockSfsIo
  return ret

def sfsRblock (buf : Pointer) (blkno nblks : Nat) : Task Int := sfsRwblock sfs buf blkno nblks false

def sfsWblock (buf : Pointer) (blkno nblks : Nat) : Task Int := sfsRwblock sfs buf blkno nblks true

/-- `offset + len` is a sum of 64-bit numbers. -/
def inBlock (len : Nat) (offset : Int) : Bool :=
  0 ≤ offset && offset < sfsBlksize && (offset + len) % 2 ^ 64 ≤ sfsBlksize

/-- What is between `lock_sfs_io` and `unlock_sfs_io`. -/
def rbufNolock (buf : Pointer) (len blkno : Nat) (offset : Int) : Task Int := do
  let ret ← sfsRwblockNolock sfs sfsBuffer blkno false true
  if ret = 0 then
    memmove sfs.dev buf (sfsBuffer.skip offset.toNat) len
    return ret
  else return ret

def sfsRbuf (buf : Pointer) (len blkno : Nat) (offset : Int) : Task Int := do
  assert (inBlock len offset)
  lockSfsIo
  let ret ← rbufNolock sfs buf len blkno offset
  unlockSfsIo
  return ret

def wbufNolock (buf : Pointer) (len blkno : Nat) (offset : Int) : Task Int := do
  let ret ← sfsRwblockNolock sfs sfsBuffer blkno false true
  if ret = 0 then
    memmove sfs.dev (sfsBuffer.skip offset.toNat) buf len
    sfsRwblockNolock sfs sfsBuffer blkno true true
  else return ret

def sfsWbuf (buf : Pointer) (len blkno : Nat) (offset : Int) : Task Int := do
  assert (inBlock len offset)
  lockSfsIo
  let ret ← wbufNolock sfs buf len blkno offset
  unlockSfsIo
  return ret

def syncSuperNolock (super : Pointer) : Task Int := do
  memset sfs.dev sfsBuffer 0 sfsBlksize
  memmove sfs.dev sfsBuffer super superSize
  sfsRwblockNolock sfs sfsBuffer sfsBlknSuper true false

/-- `super` is a copy of `sfs->super`. -/
def sfsSyncSuper (super : Pointer) : Task Int := do
  lockSfsIo
  let ret ← syncSuperNolock sfs super
  unlockSfsIo
  return ret

/-- The loop of `sfs_clear_block`; without a block it leaves `ret` as it is. -/
def clearLoop : Nat → Nat → Int → Task Int
  | 0, _, ret => return ret
  | nblks + 1, blkno, _ => do
    let ret ← sfsRwblockNolock sfs sfsBuffer blkno true true
    if ret ≠ 0 then return ret
    else clearLoop nblks (uint32 (blkno + 1)) ret

def clearNolock (blkno nblks : Nat) (ret : Int) : Task Int := do
  memset sfs.dev sfsBuffer 0 sfsBlksize
  clearLoop sfs nblks blkno ret

/-- `ret` is not initialised; it is what has been in its place. -/
def sfsClearBlock (blkno nblks : Nat) (ret : Int) : Task Int := do
  lockSfsIo
  let ret ← clearNolock sfs blkno nblks ret
  unlockSfsIo
  return ret

end

/-! ## Calls -/

inductive Call where
  | rblock (blkno nblks : Nat)
  | wblock (blkno nblks : Nat)
  | rbuf (len blkno : Nat) (offset : Int)
  | wbuf (len blkno : Nat) (offset : Int)
  | syncSuper
  | clearBlock (blkno nblks : Nat) (ret : Int)

/-- A call on the file system, with the memory that is passed to it. -/
structure Request where
  call : Call
  buffer : Buffer

def serve (sfs : SfsFs) : Call → Task Int
  | .rblock blkno nblks => sfsRblock sfs ⟨.buffer, 0⟩ blkno nblks
  | .wblock blkno nblks => sfsWblock sfs ⟨.buffer, 0⟩ blkno nblks
  | .rbuf len blkno offset => sfsRbuf sfs ⟨.buffer, 0⟩ len blkno offset
  | .wbuf len blkno offset => sfsWbuf sfs ⟨.buffer, 0⟩ len blkno offset
  | .syncSuper => sfsSyncSuper sfs ⟨.buffer, 0⟩
  | .clearBlock blkno nblks ret => sfsClearBlock sfs blkno nblks ret

def sfsSystem (sfs : SfsFs) : System Sem Memory Buffer Int Request := ⟨Request.buffer, fun request => serve sfs request.call⟩

/-- A call of `disk0_io`. -/
structure Transfer where
  offset : Int
  resid : Nat
  write : Bool
  buffer : Buffer

def Transfer.iobuf (transfer : Transfer) : Iobuf := iobufInit ⟨.buffer, 0⟩ transfer.resid transfer.offset

def disk0System (dev : Device) : System Sem Memory Buffer (Int × Iobuf) Transfer :=
  ⟨Transfer.buffer, fun transfer => disk0Io dev transfer.iobuf transfer.write⟩

end Ucore.BlockLayer
