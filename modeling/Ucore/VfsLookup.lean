import Ucore.SfsNamefile

/-! From a path to an inode: `kern/fs/vfs/vfslookup.c` with the table of devices of
`vfsdev.c`, the boot file system of `vfs.c` and the current directory of
`vfspath.c`. A path is the bytes in front of its zero. The locks make each call
one step, and what `kmalloc` answers is kept for each volume. -/
namespace Ucore.VfsLookup
open Call Sfs

def eNoDev : Int := 13
def eNaDev : Int := 14

def colon : UInt8 := 0x3a

/-- A `struct inode *`: the inode of a device, or that of a block of a file system. -/
inductive Vnode where
  | device (device : Nat)
  | sfs (fs ino : Nat)
  deriving DecidableEq

/-- The counts of the inode of a device. -/
structure DevInode where
  refCount : Nat
  openCount : Nat

/-- A `vfs_dev_t`; `devnode` and `fs` may be null. -/
structure Vdev where
  devname : List UInt8
  devnode : Option Nat
  fs : Option Nat
  mountable : Bool

structure Vfs where
  vdevList : List Vdev
  bootfsNode : Option Vnode
  /-- `current->filesp->pwd` -/
  pwd : Option Vnode
  volumes : Nat → Volume
  devices : Nat → DevInode

def Vfs.setVolume (vfs : Vfs) (fs : Nat) (vol : Volume) : Vfs := { vfs with volumes := Function.update vfs.volumes fs vol }

def Vfs.setDevice (vfs : Vfs) (device : Nat) (inode : DevInode) : Vfs :=
  { vfs with devices := Function.update vfs.devices device inode }

def onVolume {α : Type} (fs : Nat) (call : Call Volume α) : Call Vfs α :=
  within (fun vfs => vfs.volumes fs) (fun vol vfs => vfs.setVolume fs vol) call

/-! ## References -/

def vopRefInc : Vnode → Call Vfs Unit
  | .device device => modify fun vfs =>
    vfs.setDevice device { vfs.devices device with refCount := (vfs.devices device).refCount + 1 }
  | .sfs fs ino => onVolume fs (inodeRefInc ino)

/-- Devices have no `vop_reclaim` to call for the last reference. -/
def vopRefDec : Vnode → Call Vfs Unit
  | .device device => do
    let vfs ← gets fun vfs => vfs
    assert (1 < (vfs.devices device).refCount)
    modify fun vfs => vfs.setDevice device { vfs.devices device with refCount := (vfs.devices device).refCount - 1 }
  | .sfs fs ino => onVolume fs (inodeRefDec ino)

/-! ## Places to start from -/

def vfsGetCurdir : Call Vfs Vnode := do
  let vfs ← gets fun vfs => vfs
  match vfs.pwd with
  | some node =>
    vopRefInc node
    return node
  | none => fail (-eNoEnt)

def vfsGetBootfs : Call Vfs Vnode := do
  let vfs ← gets fun vfs => vfs
  match vfs.bootfsNode with
  | some node =>
    vopRefInc node
    return node
  | none => fail (-eNoEnt)

def fsopGetRoot (fs : Nat) : Call Vfs Vnode := do
  let ino ← onVolume fs sfsGetRoot
  return .sfs fs ino

/-- The loop over `vdev_list`. The inode of a device may be the null pointer. -/
def rootLoop (devname : List UInt8) : List Vdev → Call Vfs Vnode
  | [] => fail (-eNoDev)
  | vdev :: rest =>
    if devname = vdev.devname then
      match vdev.fs, vdev.devnode with
      | some fs, _ => fsopGetRoot fs
      | none, some device =>
        if vdev.mountable then fail (-eNaDev)
        else do
          vopRefInc (.device device)
          return .device device
      | none, none => if vdev.mountable then fail (-eNaDev) else stop
    else rootLoop devname rest

def vfsGetRoot (devname : List UInt8) : Call Vfs Vnode := do
  let vfs ← gets fun vfs => vfs
  rootLoop devname vfs.vdevList

/-- The name of the device that a file system is mounted on. -/
def vfsGetDevname (vdevs : List Vdev) (fs : Nat) : Option (List UInt8) :=
  (vdevs.find? fun vdev => vdev.fs = some fs).map (·.devname)

/-! ## Paths -/

/-- The loop of `get_device`: the first slash and the first colon, whichever stands in front. -/
def findMark (i : Int) : List UInt8 → Int × Int
  | [] => (-1, -1)
  | c :: rest => if c = colon then (-1, i) else if c = slash then (i, -1) else findMark (i + 1) rest

def skipSlashes (path : List UInt8) : List UInt8 := path.dropWhile (· = slash)

/-- For `:path`. The current directory is not a device, so it has a file system. -/
def currentRoot : Call Vfs Vnode := do
  let node ← vfsGetCurdir
  match node with
  | .device _ => stop
  | .sfs fs _ =>
    let root ← fsopGetRoot fs
    vopRefDec node
    return root

/-- The subpath, and the inode it is relative to. -/
def getDevice (path : List UInt8) : Call Vfs (List UInt8 × Vnode) := do
  let (slashAt, colonAt) := findMark 0 path
  if colonAt < 0 ∧ slashAt ≠ 0 then
    let node ← vfsGetCurdir
    return (path, node)
  else if 0 < colonAt then
    let node ← vfsGetRoot (path.take colonAt.toNat)
    return (skipSlashes (path.drop (colonAt.toNat + 1)), node)
  else if path.head? = some slash then
    let node ← vfsGetBootfs
    return (skipSlashes (path.drop 1), node)
  else do
    assert (path.head? = some colon)
    let root ← currentRoot
    return (skipSlashes (path.drop 1), root)

/-- `dev_lookup` finds the device itself and nothing else. -/
def vopLookup (node : Vnode) (path : List UInt8) : Call Vfs Vnode :=
  match node with
  | .device device => do
    let vfs ← gets fun vfs => vfs
    assert ((vfs.devices device).openCount ≤ (vfs.devices device).refCount)
    assert ((vfs.devices device).refCount < maxInodeCount && (vfs.devices device).openCount < maxInodeCount)
    if path ≠ [] then fail (-eNoEnt)
    else do
      vopRefInc node
      return node
  | .sfs fs dir => do
    let ino ← onVolume fs (sfsLookup dir path)
    return .sfs fs ino

def vfsLookup (path : List UInt8) : Call Vfs Vnode := do
  let (subpath, node) ← getDevice path
  if subpath ≠ [] then do
    let outcome ← attempt (vopLookup node subpath)
    vopRefDec node
    match outcome with
    | .ok found => return found
    | .error ret => fail ret
  else return node

/-! ## The current directory as a path -/

/-- The entry buffers that are held, and the rest of the state. -/
structure Process where
  vfs : Vfs
  entries : Nat

def onVfs {α : Type} (call : Call Vfs α) : Call Process α :=
  within Process.vfs (fun vfs process => { process with vfs := vfs }) call

def onNaming {α : Type} (fs : Nat) (call : Call Naming α) : Call Process α :=
  within (fun process => ⟨process.vfs.volumes fs, process.entries⟩)
    (fun naming process => ⟨process.vfs.setVolume fs naming.vol, naming.entries⟩) call

/-- `iobuf_move` of bytes to the buffer of the caller, as many as fit. -/
def iobufMove (iob : Iobuf) (data : List UInt8) : Call Naming Iobuf := do
  store iob.base (data.take iob.resid)
  let iob' ← iobufSkip iob (min iob.resid data.length)
  if data.length ≤ iob.resid then return iob' else fail (-eNoMem)

def vopNamefile (turns dir : Nat) (iob : Iobuf) : Call Naming Iobuf := do
  Sfs.onVolume (vopCheck dir dirOnly)
  sfsNamefile turns dir iob

/-- The calls of `vfs_getcwd` up to `out`. -/
def getcwdMoves (turns dir : Nat) (devname : List UInt8) (iob : Iobuf) : Call Naming Iobuf := do
  let iob ← iobufMove iob devname
  let iob ← iobufMove iob [colon]
  vopNamefile turns dir iob

def vfsGetcwd (turns : Nat) (iob : Iobuf) : Call Process Iobuf := do
  match ← onVfs vfsGetCurdir with
  | .device _ => stop
  | .sfs fs dir =>
    let process ← gets fun process => process
    match vfsGetDevname process.vfs.vdevList fs with
    | none => stop
    | some devname =>
      let outcome ← attempt (onNaming fs (getcwdMoves turns dir devname iob))
      onVfs (vopRefDec (.sfs fs dir))
      match outcome with
      | .ok iob => return iob
      | .error ret => fail ret

end Ucore.VfsLookup
