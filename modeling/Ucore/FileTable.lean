import Ucore.Runs

/-! Open files, `kern/fs/file.c` with `fs/fs.c`, `vfs_open` and `vfs_close` of
`vfs/vfsfile.c` and the counts of `vfs/inode.c`, for many processes that may share a
`files_struct`. A process may block inside of the operations of an inode; what it does
in between is one step, as nobody preempts the kernel. What a path leads to and what an
inode answers come with the steps. The references that other code has to an inode are
counted apart. `none` is a failed assertion or an access through a bad pointer. -/
namespace Ucore.FileTable

def filesStructNentry : Nat := 72
def maxInodeCount : Nat := 0x10000
def noFd : Int := -0x9527

def eInval : Int := 3
def eBusy : Int := 15
def eNotDir : Int := 18
def eMaxOpen : Int := 22

def oWronly : Nat := 1
def oRdwr : Nat := 2
def oAccmode : Nat := 3
def oCreat : Nat := 0x4
def oTrunc : Nat := 0x10
def oAppend : Nat := 0x20

/-- An index into `fd_array`. -/
abbrev Fd := Fin filesStructNentry

inductive Status where
  | fdNone
  | fdInit
  | fdOpened
  | fdClosed
  deriving DecidableEq

structure File (ι : Type) where
  status : Status
  readable : Bool
  writable : Bool
  fd : Fd
  pos : Int
  node : Option ι
  openCount : Nat

structure FilesStruct (ι : Type) where
  pwd : Option ι
  fdArray : Fd → File ι
  filesCount : Int

structure Inode where
  refCount : Nat
  openCount : Nat

/-- What a call does with its file behind the operation of the inode. -/
inductive Use where
  /-- `file_read` and `file_write`. -/
  | advance
  /-- `file_seek` to a position. -/
  | seek (pos : Int)
  | keep

/-- What follows when a file has been given up. -/
inductive Rest where
  | done (ret : Int)
  /-- The loop of `files_closeall`. -/
  | closeall (fds : List Fd)
  /-- The loop of `files_destroy`. -/
  | destroy (fds : List Fd)

/-- Where a process is. A `struct file` is known by its table and its index. -/
inductive Frame (τ ι : Type) where
  /-- In none of these calls. -/
  | user
  /-- In `vfs_open`, before it has an inode. -/
  | opens (file : τ × Fd) (flags : Nat)
  /-- In `vop_truncate` of `vfs_open`. -/
  | truncates (file : τ × Fd) (flags : Nat) (node : ι)
  /-- In `vop_close` of an open that fails. -/
  | abandons (file : τ × Fd) (node : ι) (ret : Int)
  /-- In `vop_reclaim` of an open that fails. -/
  | forgets (file : τ × Fd) (ret : Int)
  /-- In an operation of the inode of an acquired file. -/
  | uses (file : τ × Fd) (node : ι) (use : Use)
  /-- In `vop_close` of `vfs_close`. -/
  | closes (file : τ × Fd) (node : ι) (rest : Rest)
  /-- In `vop_reclaim` of `vfs_close`. -/
  | drops (file : τ × Fd) (rest : Rest)
  /-- In `vop_reclaim` of the working directory in `files_destroy`. -/
  | leaves (filesp : τ)

structure Kernel (π τ ι : Type) where
  files : τ → Option (FilesStruct ι)
  /-- The `files_struct` of a process that is there. -/
  filesp : π → Option τ
  frame : π → Frame τ ι
  /-- What the last call of a process on a file returned. -/
  ret : π → Int
  inodes : ι → Inode
  /-- The references that no file and no working directory has. -/
  outside : ι → Nat

section
variable {π τ ι : Type} [DecidableEq π] [DecidableEq τ] [DecidableEq ι] (k : Kernel π τ ι) (p : π)

namespace Kernel

def goTo (frame : Frame τ ι) : Kernel π τ ι := { k with frame := Function.update k.frame p frame }

/-- The call returns. -/
def leave (ret : Int) : Kernel π τ ι := { k.goTo p .user with ret := Function.update k.ret p ret }

def setFiles (t : τ) (files : Option (FilesStruct ι)) : Kernel π τ ι :=
  { k with files := Function.update k.files t files }

def file (ptr : τ × Fd) : Option (File ι) := (k.files ptr.1).map fun files => files.fdArray ptr.2

def setFile (ptr : τ × Fd) (file : File ι) : Kernel π τ ι :=
  k.setFiles ptr.1 ((k.files ptr.1).map fun files =>
    { files with fdArray := Function.update files.fdArray ptr.2 file })

def setInode (node : ι) (inode : Inode) : Kernel π τ ι :=
  { k with inodes := Function.update k.inodes node inode }

end Kernel

/-! ## Inodes -/

/-- The assertions before every operation of an inode. -/
def inodeCheck (inode : Inode) : Prop :=
  inode.openCount ≤ inode.refCount ∧ inode.refCount < maxInodeCount ∧ inode.openCount < maxInodeCount

instance (inode : Inode) : Decidable (inodeCheck inode) := inferInstanceAs (Decidable (_ ∧ _))

def vopRefInc (node : ι) : Kernel π τ ι :=
  k.setInode node { k.inodes node with refCount := (k.inodes node).refCount + 1 }

def vopOpenInc (node : ι) : Kernel π τ ι :=
  k.setInode node { k.inodes node with openCount := (k.inodes node).openCount + 1 }

/-- At zero `vop_reclaim` follows. -/
def vopRefDec (node : ι) : Option (Kernel π τ ι) := do
  guard (0 < (k.inodes node).refCount)
  let inode : Inode := { k.inodes node with refCount := (k.inodes node).refCount - 1 }
  guard (inode.refCount = 0 → inodeCheck inode)
  return k.setInode node inode

/-- At zero `vop_close` follows. -/
def vopOpenDec (node : ι) : Option (Kernel π τ ι) := do
  guard (0 < (k.inodes node).openCount)
  let inode : Inode := { k.inodes node with openCount := (k.inodes node).openCount - 1 }
  guard (inode.openCount = 0 → inodeCheck inode)
  return k.setInode node inode

/-! ## The entries of a table -/

def fdArrayInit : Fd → File ι := fun fd => ⟨.fdNone, false, false, fd, 0, none, 0⟩

/-- `get_fd_array`, by the address of the table. -/
def getFdArray : Option τ := do
  let t ← k.filesp p
  let files ← k.files t
  guard (0 < files.filesCount)
  return t

/-- `fd` as an index, if it passes `testfd`. -/
def testfd (fd : Int) : Option Fd :=
  if inside : 0 ≤ fd ∧ fd.toNat < filesStructNentry then some ⟨fd.toNat, inside.2⟩ else none

def fd2file (fd : Int) : Option (Option (τ × Fd)) :=
  match testfd fd with
  | none => some none
  | some fd => do
    let t ← getFdArray k p
    let file ← k.file (t, fd)
    return if file.status = .fdOpened ∧ file.fd = fd then some (t, fd) else none

/-- The part of `fd_array_alloc` from `found` on. -/
def found (ptr : τ × Fd) : Option (Kernel π τ ι) := do
  let file ← k.file ptr
  guard (file.openCount = 0)
  return k.setFile ptr { file with status := .fdInit, node := none }

def isFree (t : τ) (fd : Fd) : Bool := (k.file (t, fd)).any fun file => file.status = .fdNone

def fdArrayAlloc (fd : Int) : Option (Kernel π τ ι × Except Int (τ × Fd)) := do
  let t ← getFdArray k p
  if fd = noFd then
    match (List.finRange filesStructNentry).find? (isFree k t) with
    | some fd => return (← found k (t, fd), .ok (t, fd))
    | none => return (k, .error (-eMaxOpen))
  else
    match testfd fd with
    | some fd => if isFree k t fd then return (← found k (t, fd), .ok (t, fd)) else return (k, .error (-eBusy))
    | none => return (k, .error (-eInval))

/-- `fd_array_free`; with an inode, the process is in `vfs_close` of it. -/
def fdArrayFree (ptr : τ × Fd) : Option (Kernel π τ ι × Option ι) := do
  let file ← k.file ptr
  guard (file.status = .fdInit ∨ file.status = .fdClosed)
  guard (file.openCount = 0)
  if file.status = .fdClosed then do
    let node ← file.node
    return (← vopOpenDec k node, some node)
  else return (k.setFile ptr { file with status := .fdNone }, none)

/-- The end of `fd_array_free`. -/
def fdArrayFreed (ptr : τ × Fd) : Option (Kernel π τ ι) := do
  let file ← k.file ptr
  return k.setFile ptr { file with status := .fdNone }

def fdArrayAcquire (ptr : τ × Fd) : Option (Kernel π τ ι) := do
  let file ← k.file ptr
  guard (file.status = .fdOpened)
  return k.setFile ptr { file with openCount := file.openCount + 1 }

def fdArrayRelease (ptr : τ × Fd) : Option (Kernel π τ ι × Option ι) := do
  let file ← k.file ptr
  guard (file.status = .fdOpened ∨ file.status = .fdClosed)
  guard (0 < file.openCount)
  let k := k.setFile ptr { file with openCount := file.openCount - 1 }
  if file.openCount - 1 = 0 then fdArrayFree k ptr else return (k, none)

def fdArrayOpen (ptr : τ × Fd) : Option (Kernel π τ ι) := do
  let file ← k.file ptr
  guard (file.status = .fdInit ∧ file.node.isSome)
  return k.setFile ptr { file with status := .fdOpened, openCount := file.openCount + 1 }

def fdArrayClose (ptr : τ × Fd) : Option (Kernel π τ ι × Option ι) := do
  let file ← k.file ptr
  guard (file.status = .fdOpened)
  guard (0 < file.openCount)
  let k := k.setFile ptr { file with status := .fdClosed, openCount := file.openCount - 1 }
  if file.openCount - 1 = 0 then fdArrayFree k ptr else return (k, none)

def fdArrayDup (target source : τ × Fd) : Option (Kernel π τ ι) := do
  let toFile ← k.file target
  let fromFile ← k.file source
  guard (toFile.status = .fdInit ∧ fromFile.status = .fdOpened)
  let node ← fromFile.node
  let k := vopOpenInc (vopRefInc k node) node
  let k := k.setFile target { toFile with
    pos := fromFile.pos, readable := fromFile.readable, writable := fromFile.writable, node := some node }
  fdArrayOpen k target

/-! ## Calls on files -/

/-- `file_open` up to `vfs_open`, and that up to `vfs_lookup`. -/
def fileOpen (flags : Nat) : Option (Kernel π τ ι) :=
  if flags &&& oAccmode = oAccmode then some (k.leave p (-eInval))
  else do
    let (k, ptr) ← fdArrayAlloc k p noFd
    match ptr with
    | .error ret => return k.leave p ret
    | .ok ptr =>
      if flags &&& oTrunc ≠ 0 ∧ flags &&& oAccmode = 0 then do
        let (k, _) ← fdArrayFree k ptr
        return k.leave p (-eInval)
      else return k.goTo p (.opens ptr flags)

/-- The end of `file_open`, with the answer of `vop_fstat`. -/
def fileOpened (ptr : τ × Fd) (flags : Nat) (node : ι) (stat : Except Int Int) : Option (Kernel π τ ι) := do
  guard (flags &&& oAppend ≠ 0 → inodeCheck (k.inodes node))
  let pos := if flags &&& oAppend ≠ 0 then stat else .ok 0
  match pos with
  | .error ret => return (← vopOpenDec k node).goTo p (.abandons ptr node ret)
  | .ok pos =>
    let file ← k.file ptr
    let k := k.setFile ptr { file with
      pos := pos
      node := some node
      readable := flags &&& oAccmode ≠ oWronly
      writable := flags &&& oAccmode ≠ 0 }
    let k ← fdArrayOpen k ptr
    return k.leave p (ptr.2.val : Int)

/-- `vfs_open` has looked up an inode and opened it. -/
def vfsFound (ptr : τ × Fd) (flags : Nat) (node : ι) (stat : Except Int Int) : Option (Kernel π τ ι) := do
  guard (inodeCheck (k.inodes node))
  let k := vopOpenInc k node
  if flags &&& oTrunc ≠ 0 ∨ flags &&& oCreat ≠ 0 then do
    guard (inodeCheck (k.inodes node))
    return k.goTo p (.truncates ptr flags node)
  else fileOpened k p ptr flags node stat

/-- `vfs_open` fails before it has opened an inode. -/
def vfsFailed (ptr : τ × Fd) (ret : Int) : Option (Kernel π τ ι) := do
  let (k, _) ← fdArrayFree k ptr
  return k.leave p ret

/-- Behind `vop_truncate`. -/
def vfsTruncated (ptr : τ × Fd) (flags : Nat) (node : ι) (ret : Int) (stat : Except Int Int) :
    Option (Kernel π τ ι) :=
  if ret ≠ 0 then do return (← vopOpenDec k node).goTo p (.abandons ptr node ret)
  else fileOpened k p ptr flags node stat

/-- A file has been given up to others, or the process goes on inside of `vfs_close`. -/
def givenUp (ptr : τ × Fd) (rest : Rest) (goOn : Kernel π τ ι → Option (Kernel π τ ι)) :
    Kernel π τ ι × Option ι → Option (Kernel π τ ι)
  | (k, some node) => some (k.goTo p (.closes ptr node rest))
  | (k, none) => goOn k

def fileClose (fd : Int) : Option (Kernel π τ ι) := do
  match ← fd2file k p fd with
  | none => return k.leave p (-eInval)
  | some ptr => givenUp p ptr (.done 0) (fun k => some (k.leave p 0)) (← fdArrayClose k ptr)

/-- The calls that acquire a file. Whether they ask its inode for anything is `asks`; `use`
is an error, or what comes behind an operation of the inode. -/
def fileUse (fd : Int) (allows : File ι → Bool) (asks : Bool) (use : File ι → Except Int Use) : Option (Kernel π τ ι) := do
  match ← fd2file k p fd with
  | none => return k.leave p (-eInval)
  | some ptr =>
    let file ← k.file ptr
    if allows file then do
      let k ← fdArrayAcquire k ptr
      let node ← file.node
      guard (asks → inodeCheck (k.inodes node))
      match use file with
      | .ok use => return k.goTo p (.uses ptr node use)
      | .error ret => givenUp p ptr (.done ret) (fun k => some (k.leave p ret)) (← fdArrayRelease k ptr)
    else return k.leave p (-eInval)

def fileRead (fd : Int) : Option (Kernel π τ ι) :=
  fileUse k p fd (fun file => file.readable) true fun _ => .ok .advance

def fileWrite (fd : Int) : Option (Kernel π τ ι) :=
  fileUse k p fd (fun file => file.writable) true fun _ => .ok .advance

/-- `file_seek`, with the answer of `vop_fstat`. -/
def fileSeek (fd pos whence : Int) (stat : Except Int Int) : Option (Kernel π τ ι) :=
  fileUse k p fd (fun _ => true) (whence ∈ [0, 1, 2]) fun file =>
    if whence = 0 then .ok (.seek pos)
    else if whence = 1 then .ok (.seek (pos + file.pos))
    else if whence = 2 then stat.map fun size => .seek (pos + size)
    else .error (-eInval)

/-- `file_fstat`, `file_fsync` and `file_getdirentry`. -/
def fileLook (fd : Int) : Option (Kernel π τ ι) := fileUse k p fd (fun _ => true) true fun _ => .ok .keep

/-- What a file is like behind the operation. -/
def Use.settle (ret copied : Int) (file : File ι) : Use → File ι
  | .advance => if file.status = .fdOpened then { file with pos := file.pos + copied } else file
  | .seek pos => if ret = 0 then { file with pos := pos } else file
  | .keep => file

/-- Behind the operation of the inode. -/
def fileUsed (ptr : τ × Fd) (use : Use) (ret copied : Int) : Option (Kernel π τ ι) := do
  let file ← k.file ptr
  let k := k.setFile ptr (use.settle ret copied file)
  givenUp p ptr (.done ret) (fun k => some (k.leave p ret)) (← fdArrayRelease k ptr)

def fileDup (fd1 fd2 : Int) : Option (Kernel π τ ι) := do
  match ← fd2file k p fd1 with
  | none => return k.leave p (-eInval)
  | some file1 =>
    let (k, file2) ← fdArrayAlloc k p fd2
    match file2 with
    | .error ret => return k.leave p ret
    | .ok file2 => do
      let k ← fdArrayDup k file2 file1
      return k.leave p (file2.2.val : Int)

/-! ## Tables -/

/-- `vfs_chdir` with what its path leads to. -/
def vfsChdir (dir : ι) (isDir : Bool) : Option (Kernel π τ ι) := do
  let t ← k.filesp p
  let files ← k.files t
  let k := { k with outside := Function.update k.outside dir (k.outside dir - 1) }
  if files.pwd = some dir then return (← vopRefDec k dir).leave p 0
  else do
    -- before `vop_gettype`
    guard (inodeCheck (k.inodes dir))
    if isDir then
      let k := (vopRefInc k dir).setFiles t (some { files with pwd := some dir })
      let k ← match files.pwd with
        | some old => vopRefDec k old
        | none => some k
      return (← vopRefDec k dir).leave p 0
    else return (← vopRefDec k dir).leave p (-eNotDir)

/-- The loop of `files_closeall`. -/
def closeallLoop (t : τ) : Kernel π τ ι → List Fd → Option (Kernel π τ ι)
  | k, [] => some (k.goTo p .user)
  | k, fd :: fds => do
    let file ← k.file (t, fd)
    if file.status = .fdOpened then do
      givenUp p (t, fd) (.closeall fds) (fun k => closeallLoop t k fds) (← fdArrayClose k (t, fd))
    else closeallLoop t k fds

/-- `files_closeall`, of all files but the first two. -/
def filesCloseall : Option (Kernel π τ ι) := do
  let t ← k.filesp p
  let files ← k.files t
  guard (0 < files.filesCount)
  closeallLoop p t k ((List.finRange filesStructNentry).drop 2)

/-- The loop of `files_destroy`, with `kfree` behind it. -/
def destroyLoop (t : τ) : Kernel π τ ι → List Fd → Option (Kernel π τ ι)
  | k, [] => some ((k.setFiles t none).goTo p .user)
  | k, fd :: fds => do
    let file ← k.file (t, fd)
    if file.status = .fdOpened then do
      givenUp p (t, fd) (.destroy fds) (fun _ => none) (← fdArrayClose k (t, fd))
    else do
      guard (file.status = .fdNone)
      destroyLoop t k fds

def filesDestroy (t : τ) : Option (Kernel π τ ι) := do
  let files ← k.files t
  guard (files.filesCount = 0)
  match files.pwd with
  -- nobody looks at pwd again
  | some pwd => return ((← vopRefDec k pwd).setFiles t (some { files with pwd := none })).goTo p (.leaves t)
  | none => destroyLoop p t k (List.finRange filesStructNentry)

/-- `put_files`. -/
def putFiles (t : τ) : Option (Kernel π τ ι) := do
  let files ← k.files t
  let k := k.setFiles t (some { files with filesCount := files.filesCount - 1 })
  if files.filesCount - 1 = 0 then filesDestroy k p t else return k.goTo p .user

/-- The loop of `dup_files`. -/
def dupLoop (target source : τ) : Kernel π τ ι → List Fd → Option (Kernel π τ ι)
  | k, [] => some k
  | k, fd :: fds => do
    let fromFile ← k.file (source, fd)
    if fromFile.status = .fdOpened then do
      let toFile ← k.file (target, fd)
      let k ← fdArrayDup (k.setFile (target, fd) { toFile with status := .fdInit }) (target, fd) (source, fd)
      dupLoop target source k fds
    else dupLoop target source k fds

def dupFiles (target source : τ) : Option (Kernel π τ ι) := do
  let toFiles ← k.files target
  let fromFiles ← k.files source
  guard (toFiles.filesCount = 0 ∧ 0 < fromFiles.filesCount)
  let k := k.setFiles target (some { toFiles with pwd := fromFiles.pwd })
  let k := match fromFiles.pwd with
    | some pwd => vopRefInc k pwd
    | none => k
  dupLoop target source k (List.finRange filesStructNentry)

def filesCreate (t : τ) : Kernel π τ ι := k.setFiles t (some ⟨none, fdArrayInit, 0⟩)

def filesCountInc (t : τ) : Option (Kernel π τ ι) := do
  let files ← k.files t
  return k.setFiles t (some { files with filesCount := files.filesCount + 1 })

/-- `copy_files` without `CLONE_FS`, into a table at an address that is free. -/
def copyFiles (t : τ) : Option (Kernel π τ ι) := do
  let source ← k.filesp p
  let k ← dupFiles (filesCreate k t) t source
  filesCountInc k t

/-! ## Steps -/

inductive Call (π τ ι : Type) where
  | open (flags : Nat)
  | close (fd : Int)
  | read (fd : Int)
  | write (fd : Int)
  | seek (fd pos whence : Int) (stat : Except Int Int)
  | look (fd : Int)
  | dup (fd1 fd2 : Int)
  | chdir (dir : ι) (isDir : Bool)
  /-- `files_closeall` of `do_execve`. -/
  | exec
  | exit
  /-- `do_fork` with `CLONE_FS`. -/
  | share (child : π)
  /-- `do_fork` without it. -/
  | copy (child : π) (t : τ)
  /-- `do_fork` without it, where memory runs out behind `copy_files`. -/
  | copyFails (t : τ)

inductive Event (π τ ι : Type) where
  | call (p : π) (call : Call π τ ι)
  | found (p : π) (node : ι) (stat : Except Int Int)
  | failed (p : π) (ret : Int)
  | truncated (p : π) (ret : Int) (stat : Except Int Int)
  | used (p : π) (ret copied : Int)
  /-- `vop_close` or `vop_reclaim` is over. -/
  | finished (p : π)
  /-- Other code takes a reference to an inode. -/
  | take (node : ι)
  | drop (node : ι)

def serve (t : τ) : Call π τ ι → Option (Kernel π τ ι)
  | .open flags => fileOpen k p flags
  | .close fd => fileClose k p fd
  | .read fd => fileRead k p fd
  | .write fd => fileWrite k p fd
  | .seek fd pos whence stat => fileSeek k p fd pos whence stat
  | .look fd => fileLook k p fd
  | .dup fd1 fd2 => fileDup k p fd1 fd2
  | .chdir dir isDir => if 0 < k.outside dir then vfsChdir k p dir isDir else some k
  | .exec => filesCloseall k p
  | .exit => putFiles { k with filesp := Function.update k.filesp p none } p t
  | .share child =>
    match k.filesp child, k.frame child with
    | none, .user => do return { ← filesCountInc k t with filesp := Function.update k.filesp child (some t) }
    | _, _ => some k
  | .copy child new =>
    match k.filesp child, k.frame child, k.files new with
    | none, .user, none => do return { ← copyFiles k p new with filesp := Function.update k.filesp child (some new) }
    | _, _, _ => some k
  | .copyFails new =>
    match k.files new with
    | none => do putFiles (← copyFiles k p new) p new
    | some _ => some k

/-- What comes behind `vop_close` and `vop_reclaim`. -/
def goOn : Frame τ ι → Option (Kernel π τ ι)
  | .abandons ptr node ret => do return (← vopRefDec k node).goTo p (.forgets ptr ret)
  | .forgets ptr ret => vfsFailed k p ptr ret
  | .closes ptr node rest => do return (← vopRefDec k node).goTo p (.drops ptr rest)
  | .drops ptr (.done ret) => do return (← fdArrayFreed k ptr).leave p ret
  | .drops ptr (.closeall fds) => do closeallLoop p ptr.1 (← fdArrayFreed k ptr) fds
  | .drops ptr (.destroy fds) => do destroyLoop p ptr.1 (← fdArrayFreed k ptr) fds
  | .leaves t => destroyLoop p t k (List.finRange filesStructNentry)
  | _ => some k

def step : Event π τ ι → Option (Kernel π τ ι)
  | .call p call =>
    match k.filesp p, k.frame p with
    | some t, .user => serve k p t call
    | _, _ => some k
  | .found p node stat =>
    match k.frame p with
    | .opens ptr flags =>
      if 0 < k.outside node then
        vfsFound { k with outside := Function.update k.outside node (k.outside node - 1) } p ptr flags node stat
      else some k
    | _ => some k
  | .failed p ret =>
    match k.frame p with
    | .opens ptr _ => vfsFailed k p ptr ret
    | _ => some k
  | .truncated p ret stat =>
    match k.frame p with
    | .truncates ptr flags node => vfsTruncated k p ptr flags node ret stat
    | _ => some k
  | .used p ret copied =>
    match k.frame p with
    | .uses ptr _ use => fileUsed k p ptr use ret copied
    | _ => some k
  | .finished p => goOn k p (k.frame p)
  | .take node => some { vopRefInc k node with outside := Function.update k.outside node (k.outside node + 1) }
  | .drop node =>
    if 0 < k.outside node then
      vopRefDec { k with outside := Function.update k.outside node (k.outside node - 1) } node
    else some k

/-- One process with an empty table. -/
def boot (t : τ) : Kernel π τ ι where
  files := Function.update (fun _ => none) t (some ⟨none, fdArrayInit, 1⟩)
  filesp := Function.update (fun _ => none) p (some t)
  frame _ := .user
  ret _ := 0
  inodes _ := ⟨0, 0⟩
  outside _ := 0

end

end Ucore.FileTable
