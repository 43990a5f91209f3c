import Ucore.Call

/-! SFS, `kern/fs/sfs`: blocks on the disk, the freemap, the block map of one
file and `sfs_io_nolock`. The inode's lock and `io_sem` make each call one step.
The device is `disk0`; whether an access to it fails comes with the state. The
scratch buffer `sfs_buffer` holds nothing from one call to the next. -/
namespace Ucore.Sfs
open Call

def blksize : Nat := 4096
def ndirect : Nat := 12
def blkNentry : Nat := 1024
def blkbits : Nat := 32768
def maxFileSize : Nat := 1024 * 1024 * 128

def eInval : Int := 3
def eNoMem : Int := 4

/-- The bytes of a disk block at their offsets. -/
abbrev Block := Nat → UInt8

/-- `struct sfs_fs` with its superblock, and the device below it. -/
structure SfsFs where
  blocks : Nat
  unusedBlocks : Nat
  superDirty : Bool
  /-- Set bits are free blocks. -/
  freemap : Nat → Bool
  disk : Nat → Block
  dBlocks : Nat
  /-- What the device answers to its next accesses: their turn, block, whether
  they are writes. `none` is success. -/
  faults : Nat → Nat → Bool → Option Int

inductive FileType where
  | file
  | dir
  | link
  deriving DecidableEq

/-- `struct sfs_disk_inode` in memory. -/
structure DiskInode where
  size : Nat
  type : FileType
  blocks : Nat
  direct : Nat → Nat
  indirect : Nat

/-! ## Blocks -/

/-- `disk0_io` for one block at a byte offset: a read, or a write of `data`. -/
def disk0Io (offset : Nat) (data : Option Block) : Call SfsFs Block := do
  let sfs ← gets fun sfs => sfs
  if offset % blksize ≠ 0 || sfs.dBlocks < offset / blksize + 1 then fail (-eInval)
  else
    modify fun sfs => { sfs with faults := fun n => sfs.faults (n + 1) }
    match sfs.faults 0 (offset / blksize) data.isSome with
    | some ret => fail ret
    | none =>
      match data with
      | none => return sfs.disk (offset / blksize)
      | some block =>
        modify fun sfs => { sfs with disk := Function.update sfs.disk (offset / blksize) block }
        return block

/-- `blkno * SFS_BLKSIZE` is a product of 32-bit numbers. -/
def rwblockNolock (blkno : Nat) (data : Option Block) (check : Bool) : Call SfsFs Block := do
  let sfs ← gets fun sfs => sfs
  assert ((blkno ≠ 0 || !check) && blkno < sfs.blocks)
  disk0Io (blkno * blksize % 2 ^ 32) data

def rblockNolock (blkno : Nat) (check : Bool) : Call SfsFs Block := rwblockNolock blkno none check

def wblockNolock (blkno : Nat) (check : Bool) (block : Block) : Call SfsFs Unit := do
  let _ ← rwblockNolock blkno (some block) check
  return ()

/-- The block, of which the caller takes `len` bytes from `offset` on. -/
def rbuf (len blkno offset : Nat) : Call SfsFs Block := do
  assert (offset < blksize && offset + len ≤ blksize)
  rblockNolock blkno true

/-- `len` bytes of `data` over a block from `offset` on. -/
def overlay (block : Block) (data : Block) (len offset : Nat) : Block := fun i =>
  if offset ≤ i ∧ i < offset + len then data (i - offset) else block i

def wbuf (data : Block) (len blkno offset : Nat) : Call SfsFs Unit := do
  assert (offset < blksize && offset + len ≤ blksize)
  let block ← rblockNolock blkno true
  wblockNolock blkno true (overlay block data len offset)

def clearBlock (blkno : Nat) : Nat → Call SfsFs Unit
  | 0 => return ()
  | nblks + 1 => do
    wblockNolock blkno true fun _ => 0
    clearBlock (blkno + 1) nblks

/-! ## The freemap -/

def freemapBits (blocks : Nat) : Nat := (blocks + blkbits - 1) / blkbits * blkbits

def bitmapAlloc : Call SfsFs Nat := do
  let sfs ← gets fun sfs => sfs
  match (List.range (freemapBits sfs.blocks)).find? sfs.freemap with
  | none => fail (-eNoMem)
  | some index =>
    modify fun sfs => { sfs with freemap := Function.update sfs.freemap index false }
    return index

/-- Panics on a number out of range. -/
def blockInuse (ino : Nat) : Call SfsFs Bool := do
  let sfs ← gets fun sfs => sfs
  assert (ino ≠ 0 && ino < sfs.blocks)
  return !sfs.freemap ino

def blockAlloc : Call SfsFs Nat := do
  let ino ← bitmapAlloc
  let sfs ← gets fun sfs => sfs
  assert (0 < sfs.unusedBlocks)
  modify fun sfs => { sfs with unusedBlocks := sfs.unusedBlocks - 1, superDirty := true }
  let inuse ← blockInuse ino
  assert inuse
  clearBlock ino 1
  return ino

def blockFree (ino : Nat) : Call SfsFs Unit := do
  let inuse ← blockInuse ino
  assert inuse
  modify fun sfs => { sfs with
    freemap := Function.update sfs.freemap ino true
    unusedBlocks := sfs.unusedBlocks + 1
    superDirty := true }

/-! ## The block map -/

def loadU32 (block : Block) (offset : Nat) : Nat :=
  (block offset).toNat + 256 * ((block (offset + 1)).toNat + 256 * ((block (offset + 2)).toNat +
    256 * (block (offset + 3)).toNat))

def bytesU32 (value : Nat) : Block := fun i => UInt8.ofNat (value / 256 ^ i)

/-- From `failed_cleanup` on: an entry block that was new is freed again. -/
def cleanupEntry (entp ent : Nat) (ret : Int) : Call SfsFs (Nat × Nat) := do
  onlyIf (ent ≠ entp) (blockFree ent)
  fail ret

/-- The block that goes into an empty entry. -/
def allocEntry (entp ent offset : Nat) : Call SfsFs (Nat × Nat) := do
  match ← attempt blockAlloc with
  | .error ret => cleanupEntry entp ent ret
  | .ok ino =>
    match ← attempt (wbuf (bytesU32 ino) 4 ent offset) with
    | .error ret =>
      blockFree ino
      cleanupEntry entp ent ret
    | .ok () => return (ino, ent)

/-- The block at an index of the indirect block `entp`, and that block. -/
def bmapGetSub (entp index : Nat) (create : Bool) : Call SfsFs (Nat × Nat) := do
  assert (index < blkNentry)
  if entp ≠ 0 then
    let block ← rbuf 4 entp (index * 4)
    if loadU32 block (index * 4) ≠ 0 || !create then return (loadU32 block (index * 4), entp)
    else allocEntry entp entp (index * 4)
  else if !create then return (0, entp)
  else
    let ent ← blockAlloc
    allocEntry entp ent (index * 4)

/-- The file system, one file's in-memory inode, the buffer of its caller and
what has been moved between that and the disk. -/
structure Node where
  fs : SfsFs
  din : DiskInode
  dirty : Bool
  buf : Nat → UInt8
  moved : List (Nat × Nat × Nat × Nat)

def onFs {α : Type} (call : Call SfsFs α) : Call Node α :=
  within Node.fs (fun fs node => { node with fs := fs }) call

def checkedInuse (ino : Nat) : Call Node Unit := do
  let inuse ← onFs (blockInuse ino)
  assert inuse

def bmapGet (index : Nat) (create : Bool) : Call Node Nat := do
  let node ← gets fun node => node
  if index < ndirect then
    if node.din.direct index = 0 && create then
      let ino ← onFs blockAlloc
      modify fun node => { node with
        din := { node.din with direct := Function.update node.din.direct index ino }
        dirty := true }
      onlyIf (ino ≠ 0) (checkedInuse ino)
      return ino
    else
      onlyIf (node.din.direct index ≠ 0) (checkedInuse (node.din.direct index))
      return node.din.direct index
  else if index - ndirect < blkNentry then
    let (ino, ent) ← onFs (bmapGetSub node.din.indirect (index - ndirect) create)
    onlyIf (ent ≠ node.din.indirect) do
      assert (node.din.indirect = 0)
      modify fun node => { node with din := { node.din with indirect := ent }, dirty := true }
    onlyIf (ino ≠ 0) (checkedInuse ino)
    return ino
  else stop

def bmapLoad (index : Nat) : Call Node Nat := do
  let node ← gets fun node => node
  assert (index ≤ node.din.blocks)
  let create : Bool := index = node.din.blocks
  let ino ← bmapGet index create
  checkedInuse ino
  onlyIf create
    (modify fun node => { node with din := { node.din with blocks := node.din.blocks + 1 } })
  return ino

/-! ## Shrinking the block map -/

def bmapFreeSub (ent index : Nat) : Call SfsFs Unit := do
  let inuse ← blockInuse ent
  assert (inuse && index < blkNentry)
  let block ← rbuf 4 ent (index * 4)
  onlyIf (loadU32 block (index * 4) ≠ 0) do
    wbuf (bytesU32 0) 4 ent (index * 4)
    blockFree (loadU32 block (index * 4))

def bmapFree (index : Nat) : Call Node Unit := do
  let node ← gets fun node => node
  if index < ndirect then
    onlyIf (node.din.direct index ≠ 0) do
      onFs (blockFree (node.din.direct index))
      modify fun node => { node with
        din := { node.din with direct := Function.update node.din.direct index 0 }
        dirty := true }
  else
    onlyIf (index - ndirect < blkNentry && node.din.indirect ≠ 0)
      (onFs (bmapFreeSub node.din.indirect (index - ndirect)))

def bmapTruncate : Call Node Unit := do
  let node ← gets fun node => node
  assert (node.din.blocks ≠ 0)
  bmapFree (node.din.blocks - 1)
  modify fun node => { node with
    din := { node.din with blocks := node.din.blocks - 1 }
    dirty := true }

/-! ## Resizing a file -/

/-- The loop that adds blocks from `nblks` on. -/
def enlarge (nblks : Nat) : Nat → Call Node Unit
  | 0 => return ()
  | more + 1 => do
    let _ ← bmapLoad nblks
    enlarge (nblks + 1) more

/-- The loop that takes blocks from the end. -/
def reduce : Nat → Call Node Unit
  | 0 => return ()
  | more + 1 => do
    bmapTruncate
    reduce more

/-- `ROUNDUP_DIV` of a length by the block size. -/
def blocksFor (len : Nat) : Nat := (len + (blksize - 1)) / blksize

def resize (tblks : Nat) : Call Node Unit := do
  let node ← gets fun node => node
  if node.din.blocks < tblks then enlarge node.din.blocks (tblks - node.din.blocks)
  else reduce (node.din.blocks - tblks)

def truncfile (len : Int) : Call Node Unit := do
  let node ← gets fun node => node
  if len < 0 || (maxFileSize : Int) < len then fail (-eInval)
  else if (node.din.size : Int) = len then assert (blocksFor len.toNat = node.din.blocks)
  else
    resize (blocksFor len.toNat)
    let resized ← gets fun node => node
    assert (resized.din.blocks = blocksFor len.toNat)
    modify fun node => { node with din := { node.din with size := len.toNat }, dirty := true }

def tryseek (pos : Int) : Call Node Unit := do
  let node ← gets fun node => node
  if pos < 0 || (maxFileSize : Int) ≤ pos then fail (-eInval)
  else if (node.din.size : Int) < pos then truncfile pos
  else return ()

/-! ## Reading and writing a file -/

/-- A transfer that has been done: buffer position, disk block, offset, length. -/
def record (pos ino blkoff size : Nat) : Call Node Unit :=
  modify fun node => { node with moved := node.moved ++ [(pos, ino, blkoff, size)] }

/-- A block's bytes from `blkoff` on go to the buffer. -/
def toBuffer (pos size blkoff : Nat) (block : Block) : Call Node Unit :=
  modify fun node => { node with
    buf := fun i => if pos ≤ i ∧ i < pos + size then block (blkoff + (i - pos)) else node.buf i }

/-- `sfs_buf_op`: `size` bytes between the buffer at `pos` and a block at `blkoff`. -/
def bufOp (write : Bool) (pos size ino blkoff : Nat) : Call Node Unit :=
  if write then do
    let data ← gets fun node i => node.buf (pos + i)
    onFs (wbuf data size ino blkoff)
    record pos ino blkoff size
  else do
    let block ← onFs (rbuf size ino blkoff)
    toBuffer pos size blkoff block
    record pos ino blkoff size

/-- One round of the loop of `sfs_rwblock`. -/
def blockTransfer (write : Bool) (pos ino : Nat) : Call Node Unit :=
  if write then do
    let data ← gets fun node i => node.buf (pos + i)
    onFs (wblockNolock ino true data)
    record pos ino 0 blksize
  else do
    let block ← onFs (rblockNolock ino true)
    toBuffer pos blksize 0 block
    record pos ino 0 blksize

/-- `sfs_block_op`: `nblks` consecutive disk blocks from `ino` on. -/
def blockOp (write : Bool) (pos ino : Nat) : Nat → Call Node Unit
  | 0 => return ()
  | nblks + 1 => do
    blockTransfer write pos ino
    blockOp write (pos + blksize) (ino + 1) nblks

/-- The label `out`. -/
def finish (offset alen : Nat) (outcome : Except Int Unit) : Call Node (Nat × Except Int Unit) := do
  let node ← gets fun node => node
  onlyIf (node.din.size < offset + alen)
    (modify fun node => { node with
      din := { node.din with size := offset + alen }
      dirty := true })
  return (alen, outcome)

/-- The last part, up to `endpos`, in block `blkno`. -/
def ioTail (write : Bool) (offset endpos alen blkno : Nat) : Call Node (Nat × Except Int Unit) := do
  let size := endpos % blksize
  if size ≠ 0 then
    match ← attempt (bmapLoad blkno >>= fun ino => bufOp write alen size ino 0) with
    | .error ret => finish offset alen (.error ret)
    | .ok () => finish offset (alen + size) (.ok ())
  else finish offset alen (.ok ())

/-- The whole blocks, `nblks` from `blkno` on. -/
def ioBlocks (write : Bool) (offset endpos alen blkno nblks : Nat) : Call Node (Nat × Except Int Unit) := do
  if 0 < nblks then
    match ← attempt (bmapLoad blkno >>= fun ino => blockOp write alen ino nblks) with
    | .error ret => finish offset alen (.error ret)
    | .ok () => ioTail write offset endpos (alen + nblks * blksize) (blkno + nblks)
  else ioTail write offset endpos alen blkno

/-- The first part, where `offset` is inside a block. -/
def ioHead (write : Bool) (offset endpos : Nat) : Call Node (Nat × Except Int Unit) := do
  let blkno := offset / blksize
  let nblks := endpos / blksize - blkno
  let blkoff := offset % blksize
  if blkoff ≠ 0 then
    let size := if nblks ≠ 0 then blksize - blkoff else endpos - offset
    match ← attempt (bmapLoad blkno >>= fun ino => bufOp write 0 size ino blkoff) with
    | .error ret => finish offset 0 (.error ret)
    | .ok () =>
      if nblks = 0 then finish offset size (.ok ())
      else ioBlocks write offset endpos size (blkno + 1) (nblks - 1)
  else ioBlocks write offset endpos 0 blkno nblks

/-- Conversion to `off_t`. -/
def toOff (n : Int) : Int := n.bmod (2 ^ 64)

/-- Returns the length done, `*alenp`, and the outcome. -/
def ioNolock (write : Bool) (offset : Int) (alen : Nat) : Call Node (Nat × Except Int Unit) := do
  let node ← gets fun node => node
  assert (node.din.type ≠ .dir)
  let endpos := toOff (offset + alen)
  if offset < 0 || (maxFileSize : Int) ≤ offset || endpos < offset then return (0, .error (-eInval))
  else if offset = endpos then return (0, .ok ())
  else
    let endpos := min endpos maxFileSize
    if write then ioHead true offset.toNat endpos.toNat
    else if (node.din.size : Int) ≤ offset then return (0, .ok ())
    else ioHead false offset.toNat (min endpos node.din.size).toNat

/-! ## Calls on one file -/

inductive Request where
  | read (offset : Int) (len : Nat)
  | write (offset : Int) (data : Nat → UInt8) (len : Nat)
  | truncate (len : Int)
  | seek (pos : Int)

/-- A call and what the device answers to its accesses. -/
structure Event where
  request : Request
  answers : Nat → Nat → Bool → Option Int

def Request.buffer (request : Request) (buf : Nat → UInt8) : Nat → UInt8 :=
  match request with
  | .write _ data _ => data
  | _ => buf

/-- The node at the entry of a call. -/
def enter (event : Event) (node : Node) : Node :=
  { node with
    fs := { node.fs with faults := event.answers }
    buf := event.request.buffer node.buf
    moved := [] }

def serve : Request → Call Node (Nat × Except Int Unit)
  | .read offset len => ioNolock false offset len
  | .write offset _ len => ioNolock true offset len
  | .truncate len => do
    let outcome ← attempt (truncfile len)
    return (0, outcome)
  | .seek pos => do
    let outcome ← attempt (tryseek pos)
    return (0, outcome)

def handle (event : Event) : Call Node (Nat × Except Int Unit) := do
  modify (enter event)
  serve event.request

/-- The node after a call; `none` where it stops the system. -/
def step (node : Node) (event : Event) : Option Node := (handle event node).map Prod.snd

end Ucore.Sfs
