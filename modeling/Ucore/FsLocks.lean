import Ucore.LockOrder

/-! The semaphores of the file system, `kern/fs` with the callers in `kern/process/proc.c`.
Each function stands for what it does with them, in all the ways that its data, the disk and
the memory may lead it: `1 +` is an early return, `∗` a loop, and `⨆` runs over the inodes,
devices and file systems that a pointer may point to. Functions that neither take a semaphore
nor call one that does are left out, as are `kmalloc`, the copies to and from user memory and
page faults, which take none. -/
namespace Ucore.FsLocks
open LockOrder
open scoped Computability

inductive Device where
  | stdin
  | stdout
  | disk0
  | kpuio
  deriving DecidableEq

structure Sfs where
  ptr : Nat
  dev : Device
  deriving DecidableEq

structure Sin where
  ptr : Nat
  sfs : Sfs
  deriving DecidableEq

/-- A `struct inode` by its `in_ops`. -/
inductive Node where
  | dir (sin : Sin)
  | file (sin : Sin)
  | device (dev : Device)

inductive Sem where
  | mm (mm : Nat)
  | files (filesp : Nat)
  | vdevList
  | bootfs
  | fs (sfs : Sfs)
  | sin (sin : Sin)
  | io (sfs : Sfs)
  | disk0
  deriving DecidableEq

/-- The order in which the semaphores are taken. -/
def Sem.rank : Sem → Nat
  | mm _ => 0
  | files _ => 1
  | vdevList => 2
  | bootfs => 3
  | fs _ => 4
  | sin _ => 5
  | io _ => 6
  | disk0 => 7

abbrev Locks := Code Sem

/-! ## Devices -/

def disk0Io : Locks := 1 + locked .disk0 1

/-- `dop_io`, the same for reads and writes. -/
def dopIo : Device → Locks
  | .disk0 => disk0Io
  | _ => 1

/-! ## `sfs_io.c` -/

section
variable (sfs : Sfs)

def sfsRwblockNolock : Locks := dopIo sfs.dev

def sfsRwblock : Locks := locked (.io sfs) (sfsRwblockNolock sfs)∗

def sfsRblock : Locks := sfsRwblock sfs

def sfsWblock : Locks := sfsRwblock sfs

def sfsRbuf : Locks := locked (.io sfs) (sfsRwblockNolock sfs)

def sfsWbuf : Locks := locked (.io sfs) (sfsRwblockNolock sfs * (1 + sfsRwblockNolock sfs))

def sfsSyncSuper : Locks := locked (.io sfs) (sfsRwblockNolock sfs)

def sfsSyncFreemap : Locks := sfsWblock sfs

def sfsClearBlock : Locks := locked (.io sfs) (sfsRwblockNolock sfs)∗

/-! ## Blocks and entries, `sfs_inode.c` -/

def sfsBlockAlloc : Locks := 1 + sfsClearBlock sfs

def sfsLoadInode : Locks := locked (.fs sfs) (1 + sfsRbuf sfs)

def sfsBmapGetSubNolock : Locks :=
  (1 + sfsRbuf sfs + sfsBlockAlloc sfs) * (1 + sfsBlockAlloc sfs * (1 + sfsWbuf sfs))

def sfsBmapGetNolock : Locks := 1 + sfsBlockAlloc sfs + sfsBmapGetSubNolock sfs

def sfsBmapFreeSubNolock : Locks := sfsRbuf sfs * (1 + sfsWbuf sfs)

def sfsBmapFreeNolock : Locks := 1 + sfsBmapFreeSubNolock sfs

def sfsBmapLoadNolock : Locks := sfsBmapGetNolock sfs

def sfsBmapTruncateNolock : Locks := sfsBmapFreeNolock sfs

def sfsDirentReadNolock : Locks := sfsBmapLoadNolock sfs * (1 + sfsRbuf sfs)

def sfsDirentSearchNolock : Locks := (sfsDirentReadNolock sfs)∗

def sfsDirentFindinoNolock : Locks := (sfsDirentReadNolock sfs)∗

def sfsGetdirentrySubNolock : Locks := (sfsDirentReadNolock sfs)∗

/-- One of the three parts of `sfs_io_nolock`, with the function that it calls for the data. -/
def sfsIoPart (op : Sfs → Locks) : Locks := 1 + sfsBmapLoadNolock sfs * (1 + op sfs)

def sfsIoNolock (write : Bool) : Locks :=
  let sfsBufOp := if write then sfsWbuf else sfsRbuf
  let sfsBlockOp := if write then sfsWblock else sfsRblock
  sfsIoPart sfs sfsBufOp * sfsIoPart sfs sfsBlockOp * sfsIoPart sfs sfsBufOp

end

/-! ## The operations of an inode, `sfs_inode.c` -/

section
variable (sin : Sin)

def sfsLookupOnce : Locks := locked (.sin sin) (sfsDirentSearchNolock sin.sfs) * (1 + sfsLoadInode sin.sfs)

def sfsIo (write : Bool) : Locks := locked (.sin sin) (sfsIoNolock sin.sfs write)

def sfsFsync : Locks := 1 + locked (.sin sin) (1 + sfsWbuf sin.sfs)

def sfsClose : Locks := sfsFsync sin

def sfsGetdirentry : Locks := 1 + locked (.sin sin) (sfsGetdirentrySubNolock sin.sfs)

def sfsTruncfile : Locks := 1 + locked (.sin sin) ((sfsBmapLoadNolock sin.sfs)∗ + (sfsBmapTruncateNolock sin.sfs)∗)

end

/-- An operation that an inode does not have stops the kernel. -/
def vopTruncate : Node → Locks
  | .file sin => sfsTruncfile sin
  | _ => 1

def vopFsync : Node → Locks
  | .dir sin | .file sin => sfsFsync sin
  | .device _ => 1

def vopClose : Node → Locks
  | .dir sin | .file sin => sfsClose sin
  | .device _ => 1

def vopRead : Node → Locks
  | .dir _ => 1
  | .file sin => sfsIo sin false
  | .device dev => dopIo dev

def vopWrite : Node → Locks
  | .dir _ => 1
  | .file sin => sfsIo sin true
  | .device dev => dopIo dev

def vopGetdirentry : Node → Locks
  | .dir sin => sfsGetdirentry sin
  | _ => 1

def sfsTryseek (node : Node) : Locks := 1 + vopTruncate node

def vopTryseek : Node → Locks
  | .file sin => sfsTryseek (.file sin)
  | _ => 1

/-- `sfs_reclaim` of an inode with its `struct sfs_inode`. -/
def sfsReclaim (node : Node) (sin : Sin) : Locks := locked (.fs sin.sfs) ((1 + vopTruncate node) * (1 + vopFsync node))

def vopReclaim : Node → Locks
  | .dir sin => sfsReclaim (.dir sin) sin
  | .file sin => sfsReclaim (.file sin) sin
  | .device _ => 1

def inodeRefDec (node : Node) : Locks := 1 + vopReclaim node

def inodeOpenDec (node : Node) : Locks := 1 + vopClose node

def sfsLookup (sin : Sin) : Locks := (1 + sfsLookupOnce sin) * inodeRefDec (.dir sin)

def vopLookup : Node → Locks
  | .dir sin => sfsLookup sin
  | _ => 1

/-- One pass of the loop of `sfs_namefile`, from a directory to its parent. -/
def namefilePass (sin parent : Sin) : Locks :=
  sfsLookupOnce sin * inodeRefDec (.dir sin) * locked (.sin parent) (sfsDirentFindinoNolock parent.sfs)

def sfsNamefile : Locks :=
  1 + (⨆ sin, ⨆ parent, namefilePass sin parent)∗ * ⨆ sin, (1 + sfsLookupOnce sin) * (1 + inodeRefDec (.dir sin)) * inodeRefDec (.dir sin)

def vopNamefile : Node → Locks
  | .dir _ => sfsNamefile
  | _ => 1

/-! ## The file system, `sfs_fs.c` -/

def sfsSync (sfs : Sfs) : Locks :=
  locked (.fs sfs) (⨆ node, vopFsync node)∗ * (1 + sfsSyncSuper sfs * (1 + sfsSyncFreemap sfs))

def sfsGetRoot (sfs : Sfs) : Locks := sfsLoadInode sfs

def sfsCleanup (sfs : Sfs) : Locks := (sfsSync sfs)∗

def sfsInitRead (dev : Device) : Locks := dopIo dev

def sfsInitFreemap (dev : Device) : Locks := (sfsInitRead dev)∗

def sfsDoMount (dev : Device) : Locks := 1 + sfsInitRead dev * (1 + sfsInitFreemap dev)

/-! ## `vfsdev.c` -/

def vfsCleanup : Locks := 1 + locked .vdevList (⨆ sfs, sfsCleanup sfs)∗

def vfsGetRoot : Locks := 1 + locked .vdevList (1 + ⨆ sfs, sfsGetRoot sfs)

def vfsDoAdd : Locks := 1 + locked .vdevList 1

def vfsMount : Locks := locked .vdevList (1 + ⨆ dev, sfsDoMount dev)

def vfsUnmount : Locks := locked .vdevList (1 + ⨆ sfs, sfsSync sfs)

def vfsUnmountAll : Locks := 1 + locked .vdevList (⨆ sfs, sfsSync sfs)∗

/-! ## `vfs.c`, `vfslookup.c` and `vfspath.c` -/

def vfsGetBootfs : Locks := 1 + locked .bootfs 1

def getDevice : Locks := 1 + vfsGetRoot + vfsGetBootfs + ⨆ sfs, ⨆ node, sfsGetRoot sfs * inodeRefDec node

def vfsLookup : Locks := getDevice * (1 + ⨆ node, vopLookup node * inodeRefDec node)

def vfsLookupParent : Locks := getDevice

/-- `vfs_set_curdir`, which may drop the last reference to the old directory. -/
def vfsSetCurdir (filesp : Nat) : Locks := locked (.files filesp) (1 + ⨆ oldDir, inodeRefDec oldDir)

def vfsChdir (filesp : Nat) : Locks := vfsLookup * (1 + ⨆ node, vfsSetCurdir filesp * inodeRefDec node)

def vfsGetcwd : Locks := 1 + ⨆ node, (1 + vopNamefile node) * inodeRefDec node

def changeBootfs : Locks := locked .bootfs 1 * (1 + ⨆ old, inodeRefDec old)

def vfsSetBootfs (filesp : Nat) : Locks := (1 + vfsChdir filesp) * (1 + changeBootfs)

/-! ## `vfsfile.c` and `file.c` -/

def vfsClose (node : Node) : Locks := inodeOpenDec node * inodeRefDec node

/-- `vfs_open` once it has the inode. -/
def vfsOpenNode (node : Node) : Locks := inodeRefDec node + (1 + vopTruncate node * (1 + inodeOpenDec node * inodeRefDec node))

def vfsOpen : Locks := 1 + vfsLookup * (1 + vfsLookupParent) * (1 + ⨆ node, vfsOpenNode node)

def fdArrayFree (node : Node) : Locks := 1 + vfsClose node

def fdArrayRelease (node : Node) : Locks := 1 + fdArrayFree node

def fdArrayClose (node : Node) : Locks := 1 + fdArrayFree node

def fileOpen : Locks := 1 + vfsOpen * (1 + ⨆ node, vfsClose node)

def fileClose : Locks := 1 + ⨆ node, fdArrayClose node

/-- A function of `file.c` that calls an operation of the inode between `fd_array_acquire` and `fd_array_release`. -/
def acquired (op : Node → Locks) : Locks := 1 + ⨆ node, op node * fdArrayRelease node

def fileRead : Locks := acquired vopRead

def fileWrite : Locks := acquired vopWrite

def fileSeek : Locks := acquired fun node => 1 + vopTryseek node

def fileFstat : Locks := acquired fun _ => 1

def fileFsync : Locks := acquired vopFsync

def fileGetdirentry : Locks := acquired vopGetdirentry

/-! ## `fs.c` -/

def filesDestroy : Locks := (1 + ⨆ pwd, inodeRefDec pwd) * (⨆ node, fdArrayClose node)∗

def filesCloseall : Locks := (⨆ node, fdArrayClose node)∗

/-! ## `sysfile.c` -/

/-- The code between `lock_mm` and `unlock_mm`; a kernel thread has no `mm`. -/
def lockedMm (mm : Option Nat) (body : Locks) : Locks :=
  match mm with
  | none => body
  | some mm => locked (.mm mm) body

section
variable (mm : Option Nat) (filesp : Nat)

def copyPath : Locks := 1 + lockedMm mm 1

def sysfileOpen : Locks := copyPath mm * (1 + fileOpen)

def sysfileClose : Locks := fileClose

def sysfileRead : Locks := 1 + (fileRead * (1 + lockedMm mm 1))∗

def sysfileWrite : Locks := 1 + (lockedMm mm 1 * (1 + fileWrite))∗

def sysfileSeek : Locks := fileSeek

def sysfileFstat : Locks := fileFstat * (1 + lockedMm mm 1)

def sysfileFsync : Locks := fileFsync

def sysfileChdir : Locks := copyPath mm * (1 + vfsChdir filesp)

def sysfileLink : Locks := copyPath mm * (1 + copyPath mm)

def sysfileRename : Locks := copyPath mm * (1 + copyPath mm)

def sysfileUnlink : Locks := copyPath mm

def sysfileGetcwd : Locks := 1 + lockedMm mm (1 + vfsGetcwd)

def sysfileGetdirentry : Locks := 1 + lockedMm mm 1 * (1 + fileGetdirentry * (1 + lockedMm mm 1))

/-! ## `proc.c` -/

def copyMm : Locks := 1 + lockedMm mm 1

def copyFiles : Locks := 1 + filesDestroy

def putFiles : Locks := 1 + filesDestroy

def doFork : Locks := 1 + copyFiles * (1 + copyMm mm) * (1 + putFiles)

def doExit : Locks := 1 + putFiles

/-- `load_icode_read`, while `current->mm` is `NULL`. -/
def loadIcodeRead : Locks := sysfileSeek * (1 + sysfileRead none)

def loadIcode : Locks := loadIcodeRead∗ * (1 + sysfileClose)

def doExecve : Locks :=
  1 + lockedMm mm 1 * (1 + filesCloseall * sysfileOpen mm * (1 + loadIcode) * (1 + doExit))

/-! ## All calls -/

/-- The system calls of a process with this `mm` and these open files. -/
def systemCalls : Locks :=
  sysfileOpen mm + sysfileClose + sysfileRead mm + sysfileWrite mm + sysfileSeek + sysfileFstat mm + sysfileFsync +
    sysfileChdir mm filesp + sysfileLink mm + sysfileRename mm + sysfileUnlink mm + sysfileGetcwd mm + sysfileGetdirentry mm +
    doFork mm + doExit + doExecve mm

/-- What the kernel does on its own, when it boots and when it ends. -/
def kernelCalls : Locks := vfsDoAdd + vfsMount + vfsSetBootfs filesp + vfsUnmount + vfsUnmountAll + vfsCleanup

end

def fsCalls : Locks := ⨆ mm, ⨆ filesp, systemCalls mm filesp + kernelCalls filesp

end Ucore.FsLocks
