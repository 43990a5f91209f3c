import Ucore.Sfs

/-! A mounted SFS with the inodes in memory, `kern/fs/sfs/sfs_inode.c` and
`kern/fs/vfs/inode.c`: loading an inode from its disk block, writing it back,
looking a name up in a directory, giving an inode up. An inode is named by the
block it is in. The locks make each call one step. -/
namespace Ucore.Sfs
open Call

def maxFnameLen : Nat := 255
def maxInodeCount : Nat := 0x10000
def blknRoot : Nat := 1
def blknFreemap : Nat := 2

def eBusy : Int := 15
def eNoEnt : Int := 16
def eNotDir : Int := 18

/-- A `struct inode` with its `struct sfs_inode`. -/
structure Inode where
  din : DiskInode
  nlinks : Nat
  dirty : Bool
  reclaimCount : Nat
  refCount : Nat
  openCount : Nat

structure Volume where
  fs : SfsFs
  /-- The inodes of `inode_list`, by the block they are in. -/
  inodes : Nat → Option Inode
  /-- Whether the next requests for kernel memory are met. -/
  kmallocs : Nat → Bool
  /-- The buffer of the caller of a transfer. -/
  buf : Nat → UInt8

/-! ## Inodes on the disk -/

def word (block : Block) (k : Nat) : Nat := loadU32 block (k * 4)

def typeCode : FileType → Nat
  | .file => 1
  | .dir => 2
  | .link => 3

def typeOf (code : Nat) : Option FileType :=
  if code = 1 then some .file else if code = 2 then some .dir else if code = 3 then some .link else none

/-- The words of a `struct sfs_disk_inode`. -/
def dinWord (din : DiskInode) (nlinks k : Nat) : Nat :=
  if k = 0 then din.size
  else if k = 1 then typeCode din.type + 2 ^ 16 * nlinks
  else if k = 2 then din.blocks
  else if k < 3 + ndirect then din.direct (k - 3)
  else din.indirect

def dinSize : Nat := 64

def dinBytes (din : DiskInode) (nlinks : Nat) : Block := fun i => bytesU32 (dinWord din nlinks (i / 4)) (i % 4)

/-- `struct sfs_disk_inode` at the start of a block, with its link count. `none` is a type
that `sfs_get_ops` does not know. -/
def dinOf (block : Block) : Option (DiskInode × Nat) :=
  (typeOf (word block 1 % 2 ^ 16)).map fun type => ({
    size := word block 0
    type := type
    blocks := word block 2
    direct := fun i => if i < ndirect then word block (3 + i) else 0
    indirect := word block (3 + ndirect) }, word block 1 / 2 ^ 16)

/-! ## Calls on a volume -/

/-- `kmalloc` of one object: whether there was memory. -/
def kmalloc : Call Volume Bool := do
  let vol ← gets fun vol => vol
  modify fun vol => { vol with kmallocs := fun n => vol.kmallocs (n + 1) }
  return vol.kmallocs 0

def onDisk {α : Type} (call : Call SfsFs α) : Call Volume α :=
  within Volume.fs (fun fs vol => { vol with fs := fs }) call

/-- The inode in memory; there is none to follow a pointer to when it has been freed. -/
def getInode (ino : Nat) : Call Volume Inode := fun vol =>
  (vol.inodes ino).map fun inode => (.ok inode, vol)

def Volume.set (vol : Volume) (ino : Nat) (inode : Option Inode) : Volume :=
  { vol with inodes := Function.update vol.inodes ino inode }

def setInode (ino : Nat) (inode : Option Inode) : Call Volume Unit := modify fun vol => vol.set ino inode

def Volume.node (vol : Volume) (inode : Inode) : Node where
  fs := vol.fs
  din := inode.din
  dirty := inode.dirty
  buf := vol.buf
  moved := []

def Volume.put (vol : Volume) (ino : Nat) (inode : Inode) (node : Node) : Volume :=
  { vol with
    fs := node.fs
    inodes := Function.update vol.inodes ino (some { inode with din := node.din, dirty := node.dirty })
    buf := node.buf }

/-- A call on the file of an inode, under its lock. -/
def onInode {α : Type} (ino : Nat) (call : Call Node α) : Call Volume α := do
  let inode ← getInode ino
  within (fun vol => vol.node inode) (fun node vol => vol.put ino inode node) call

/-- The check before each `vop_*` call; the operation is there for the types in `kinds`. -/
def vopCheck (ino : Nat) (kinds : FileType → Bool) : Call Volume Unit := do
  let inode ← getInode ino
  assert (kinds inode.din.type)
  assert (inode.openCount ≤ inode.refCount)
  assert (inode.refCount < maxInodeCount && inode.openCount < maxInodeCount)

def fileOnly (type : FileType) : Bool := type = .file
def dirOnly (type : FileType) : Bool := type = .dir
def fileOrDir (type : FileType) : Bool := type ≠ .link

/-! ## Loading and writing back -/

def sfsLoadInode (ino : Nat) : Call Volume Unit := do
  let vol ← gets fun vol => vol
  match vol.inodes ino with
  | some inode =>
    setInode ino (some { inode with
      refCount := inode.refCount + 1
      reclaimCount := if inode.refCount + 1 = 1 then inode.reclaimCount + 1 else inode.reclaimCount })
  | none =>
    let gotDin ← kmalloc
    if !gotDin then fail (-eNoMem)
    else
      let inuse ← onDisk (blockInuse ino)
      assert inuse
      let block ← onDisk (rbuf dinSize ino 0)
      assert (word block 1 / 2 ^ 16 ≠ 0)
      let gotInode ← kmalloc
      if !gotInode then fail (-eNoMem)
      else
        match dinOf block with
        | none => stop
        | some (din, nlinks) =>
          assert (din.type ≠ .link)
          setInode ino (some ⟨din, nlinks, false, 1, 1, 0⟩)

def sfsFsync (ino : Nat) : Call Volume Unit := do
  vopCheck ino fileOrDir
  let inode ← getInode ino
  onlyIf inode.dirty do
    setInode ino (some { inode with dirty := false })
    match ← attempt (onDisk (wbuf (dinBytes inode.din inode.nlinks) dinSize ino 0)) with
    | .ok () => return ()
    | .error ret =>
      setInode ino (some { inode with dirty := true })
      fail ret

def sfsTruncfile (ino : Nat) (len : Int) : Call Volume Unit := do
  vopCheck ino fileOnly
  onInode ino (truncfile len)

def sfsReclaim (ino : Nat) : Call Volume Unit := do
  vopCheck ino fileOrDir
  let inode ← getInode ino
  assert (0 < inode.reclaimCount)
  setInode ino (some { inode with reclaimCount := inode.reclaimCount - 1 })
  if inode.reclaimCount - 1 ≠ 0 || inode.refCount ≠ 0 then fail (-eBusy)
  else
    onlyIf (inode.nlinks = 0) (sfsTruncfile ino 0)
    let inode ← getInode ino
    onlyIf inode.dirty (sfsFsync ino)
    let inode ← getInode ino
    onlyIf (inode.nlinks = 0) do
      onDisk (blockFree ino)
      onlyIf (inode.din.indirect ≠ 0) (onDisk (blockFree inode.din.indirect))
    assert (inode.refCount = 0 && inode.openCount = 0)
    setInode ino none

def inodeRefInc (ino : Nat) : Call Volume Unit := do
  let inode ← getInode ino
  setInode ino (some { inode with refCount := inode.refCount + 1 })

/-- What `vop_reclaim` returns is only reported. -/
def inodeRefDec (ino : Nat) : Call Volume Unit := do
  let inode ← getInode ino
  assert (0 < inode.refCount)
  setInode ino (some { inode with refCount := inode.refCount - 1 })
  onlyIf (inode.refCount - 1 = 0) do
    let _ ← attempt (sfsReclaim ino)
    return ()

/-! ## Directories -/

structure Dirent where
  ino : Nat
  name : List UInt8

def direntSize : Nat := 260

/-- `struct sfs_disk_entry`; the name is a C string with a zero put at its end. -/
def direntOf (block : Block) : Dirent :=
  ⟨loadU32 block 0, ((List.range maxFnameLen).map fun i => block (4 + i)).takeWhile (· ≠ 0)⟩

def direntRead (slot : Nat) : Call Node Dirent := do
  let node ← gets fun node => node
  assert (node.din.type = .dir && slot < node.din.blocks)
  let ino ← bmapLoad slot
  checkedInuse ino
  let block ← onFs (rbuf direntSize ino 0)
  return direntOf block

/-- The loop over the slots, `more` of them left. -/
def direntSearch (name : List UInt8) (slot : Nat) : Nat → Call Node Nat
  | 0 => fail (-eNoEnt)
  | more + 1 => do
    let entry ← direntRead slot
    if entry.ino ≠ 0 && entry.name = name then return entry.ino
    else direntSearch name (slot + 1) more

def sfsLookupOnce (dir : Nat) (name : List UInt8) : Call Volume Nat := do
  assert (name.length ≤ maxFnameLen)
  let got ← kmalloc
  if !got then fail (-eNoMem)
  else
    let inode ← getInode dir
    let ino ← onInode dir (direntSearch name 0 inode.din.blocks)
    sfsLoadInode ino
    return ino

/-- The whole path is looked up as one name. -/
def sfsLookup (dir : Nat) (path : List UInt8) : Call Volume Nat := do
  vopCheck dir dirOnly
  assert (path ≠ [] && path.head? ≠ some 0x2f)
  inodeRefInc dir
  let inode ← getInode dir
  if inode.din.type ≠ .dir then do
    inodeRefDec dir
    fail (-eNotDir)
  else
    let outcome ← attempt (sfsLookupOnce dir path)
    inodeRefDec dir
    match outcome with
    | .ok ino => return ino
    | .error ret => fail ret

/-- `sfs_get_root` panics when the root cannot be loaded. -/
def sfsGetRoot : Call Volume Nat := do
  match ← attempt (sfsLoadInode blknRoot) with
  | .ok () => return blknRoot
  | .error _ => stop

/-! ## Calls on a volume from above -/

inductive Operation where
  | io (ino : Nat) (request : Request)
  | lookup (dir : Nat) (path : List UInt8)
  | root
  | fsync (ino : Nat)
  | hold (ino : Nat)
  | release (ino : Nat)

/-- An operation, what the device answers to its accesses and which of its requests for
memory are met. -/
structure Access where
  operation : Operation
  answers : Nat → Nat → Bool → Option Int
  kmallocs : Nat → Bool

/-- `sfs_read`, `sfs_write`, `sfs_truncfile` and `sfs_tryseek` are operations of files. -/
def sfsServe (ino : Nat) (request : Request) : Call Volume (Nat × Except Int Unit) := do
  vopCheck ino fileOnly
  modify fun vol => { vol with buf := request.buffer vol.buf }
  onInode ino (serve request)

def serveOperation : Operation → Call Volume Unit
  | .io ino request => do
    let _ ← sfsServe ino request
    return ()
  | .lookup dir path => do
    let _ ← sfsLookup dir path
    return ()
  | .root => do
    let _ ← sfsGetRoot
    return ()
  | .fsync ino => sfsFsync ino
  | .hold ino => inodeRefInc ino
  | .release ino => inodeRefDec ino

/-- The volume at the entry of an operation. -/
def Volume.enter (vol : Volume) (access : Access) : Volume :=
  { vol with fs := { vol.fs with faults := access.answers }, kmallocs := access.kmallocs }

def handleAccess (access : Access) : Call Volume Unit := do
  modify fun vol => vol.enter access
  serveOperation access.operation

def Volume.step (vol : Volume) (access : Access) : Option Volume := (handleAccess access vol).map Prod.snd

end Ucore.Sfs
