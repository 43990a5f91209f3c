import Mathlib

/-! Processes and what they hold, `kern/process/proc.c` with the parts of
`fs/fs.c`, `fs/file.c`, `vfs/inode.c` and `vfs/vfsfile.c` that count references.
An allocation is named by a number of its own, so a freed name is never seen
again; which allocations fail, the pid `get_pid` returns and what a path leads
to come with the call. A call runs to its end as one step. `none` is a panic, a
failed assertion or an access through a dead pointer. Scheduling states, cr3,
trap frames and the contents of address spaces are left out. -/
namespace Ucore.Process

def maxProcess : Nat := 4096
def maxPid : Int := 8192
def maxInodeCount : Int := 0x10000
def filesStructNentry : Nat := 72

def eBadProc : Int := 2
def eInval : Int := 3
def eNoMem : Int := 4
def eNoFreeProc : Int := 5
def eMaxOpen : Int := 22

structure Inode where
  refCount : Int
  openCount : Int

/-- An entry of `fdArray` is the inode of an `FD_OPENED` file, or `FD_NONE`. -/
structure FilesStruct where
  filesCount : Int
  pwd : Option Nat
  fdArray : List (Option Nat)

structure MmStruct where
  mmCount : Int

/-- A `proc_struct` at its address. -/
structure Proc where
  addr : Nat
  pid : Int
  parent : Option Nat
  kstack : Option Nat
  mm : Option Nat
  filesp : Option Nat
  zombie : Bool
  exitCode : Int

/-- `procs` holds every process that is not reaped; the children of one process
stand in it in the order of its `cptr` list. -/
structure Kernel where
  procs : List Proc
  nrProcess : Nat
  initproc : Option Nat
  procStructs : Nat → Bool
  kstacks : Nat → Bool
  mms : Nat → Option MmStruct
  files : Nat → Option FilesStruct
  inodes : Nat → Inode
  /-- The next allocation's name. -/
  next : Nat

structure CloneFlags where
  vm : Bool
  fs : Bool

/-- Which of the allocations of `do_fork` succeed. -/
structure Memory where
  proc : Bool
  kstack : Bool
  files : Bool
  mm : Bool

def idleproc : Nat := 0

/-! ## Inodes -/

def setInode (k : Kernel) (node : Nat) (inode : Inode) : Kernel :=
  { k with inodes := Function.update k.inodes node inode }

/-- The assertions before every operation of an inode. -/
def inodeCheck (inode : Inode) : Bool :=
  inode.openCount ≤ inode.refCount && 0 ≤ inode.openCount &&
    inode.refCount < maxInodeCount && inode.openCount < maxInodeCount

def vopRefInc (k : Kernel) (node : Nat) : Kernel :=
  setInode k node { k.inodes node with refCount := (k.inodes node).refCount + 1 }

def vopOpenInc (k : Kernel) (node : Nat) : Kernel :=
  setInode k node { k.inodes node with openCount := (k.inodes node).openCount + 1 }

/-- At zero `vop_reclaim` follows. -/
def vopRefDec (k : Kernel) (node : Nat) : Option Kernel :=
  if 0 < (k.inodes node).refCount then
    let inode := { k.inodes node with refCount := (k.inodes node).refCount - 1 }
    if inode.refCount = 0 && !inodeCheck inode then none else some (setInode k node inode)
  else none

/-- At zero `vop_close` follows. -/
def vopOpenDec (k : Kernel) (node : Nat) : Option Kernel :=
  if 0 < (k.inodes node).openCount then
    let inode := { k.inodes node with openCount := (k.inodes node).openCount - 1 }
    if inode.openCount = 0 && !inodeCheck inode then none else some (setInode k node inode)
  else none

def vfsClose (k : Kernel) (node : Nat) : Option Kernel :=
  (vopOpenDec k node).bind fun k => vopRefDec k node

/-! ## Open files -/

def setFiles (k : Kernel) (filesp : Nat) (files : Option FilesStruct) : Kernel :=
  { k with files := Function.update k.files filesp files }

def filesCreate (k : Kernel) : Kernel × Nat :=
  ({ setFiles k k.next (some ⟨0, none, List.replicate filesStructNentry none⟩) with
    next := k.next + 1 }, k.next)

/-- `fd_array_close` of every opened entry. -/
def closeEntries (k : Kernel) : List (Option Nat) → Option Kernel
  | [] => some k
  | none :: rest => closeEntries k rest
  | some node :: rest => (vfsClose k node).bind fun k => closeEntries k rest

/-- The reference of a `files_struct` to its working directory. -/
def getPwd (k : Kernel) : Option Nat → Kernel
  | some pwd => vopRefInc k pwd
  | none => k

def putPwd (k : Kernel) : Option Nat → Option Kernel
  | some pwd => vopRefDec k pwd
  | none => some k

def filesDestroy (k : Kernel) (filesp : Nat) : Option Kernel := do
  let files ← k.files filesp
  if files.filesCount = 0 then
    let k ← putPwd k files.pwd
    let k ← closeEntries k files.fdArray
    return setFiles k filesp none
  else none

/-- Closes all but stdin and stdout. -/
def filesCloseall (k : Kernel) (filesp : Nat) : Option Kernel := do
  let files ← k.files filesp
  if 0 < files.filesCount then
    let k ← closeEntries k (files.fdArray.drop 2)
    return setFiles k filesp (some { files with
      fdArray := files.fdArray.take 2 ++ (files.fdArray.drop 2).map fun _ => none })
  else none

/-- `fd_array_dup` of every opened entry. -/
def dupEntries (k : Kernel) : List (Option Nat) → Kernel
  | [] => k
  | none :: rest => dupEntries k rest
  | some node :: rest => dupEntries (vopOpenInc (vopRefInc k node) node) rest

def dupFiles (k : Kernel) (filesTo filesFrom : Nat) : Option Kernel := do
  let toFiles ← k.files filesTo
  let fromFiles ← k.files filesFrom
  if toFiles.filesCount = 0 && 0 < fromFiles.filesCount then
    return setFiles (dupEntries (getPwd k fromFiles.pwd) fromFiles.fdArray) filesTo
      (some { toFiles with pwd := fromFiles.pwd, fdArray := fromFiles.fdArray })
  else none

def filesCountInc (k : Kernel) (filesp : Nat) : Option Kernel :=
  (k.files filesp).map fun files =>
    setFiles k filesp (some { files with filesCount := files.filesCount + 1 })

/-- `file_open`; `file` is what `vfs_open` finds, or its error. -/
def fileOpen (k : Kernel) (filesp : Nat) (file : Except Int Nat) :
    Option (Kernel × Except Int Nat) := do
  let files ← k.files filesp
  if 0 < files.filesCount then
    match files.fdArray.findIdx? Option.isNone, file with
    | none, _ => return (k, .error (-eMaxOpen))
    | some _, .error ret => return (k, .error ret)
    | some fd, .ok node =>
      return (setFiles (vopOpenInc (vopRefInc k node) node) filesp
        (some { files with fdArray := files.fdArray.set fd (some node) }), .ok fd)
  else none

def fileClose (k : Kernel) (filesp fd : Nat) : Option Kernel := do
  let files ← k.files filesp
  match files.fdArray[fd]? with
  | some (some node) =>
    let k ← vfsClose k node
    return setFiles k filesp (some { files with fdArray := files.fdArray.set fd none })
  | _ => return k

/-- `vfs_chdir` where the path leads to a directory. -/
def vfsChdir (k : Kernel) (filesp dir : Nat) : Option Kernel := do
  let files ← k.files filesp
  let k := vopRefInc k dir
  if files.pwd = some dir then vopRefDec k dir
  else
    let k := setFiles (vopRefInc k dir) filesp (some { files with pwd := some dir })
    let k ← putPwd k files.pwd
    vopRefDec k dir

/-! ## Creation -/

def allocProc (k : Kernel) : Kernel × Proc :=
  ({ k with procStructs := Function.update k.procStructs k.next true, next := k.next + 1 },
    ⟨k.next, -1, none, none, none, none, false, 0⟩)

def kfreeProc (k : Kernel) (proc : Proc) : Kernel :=
  { k with procStructs := Function.update k.procStructs proc.addr false }

def setupKstack (k : Kernel) (proc : Proc) : Kernel × Proc :=
  ({ k with kstacks := Function.update k.kstacks k.next true, next := k.next + 1 },
    { proc with kstack := some k.next })

def putKstack (k : Kernel) (proc : Proc) : Kernel :=
  { k with kstacks := match proc.kstack with
      | some kstack => Function.update k.kstacks kstack false
      | none => k.kstacks }

def setMm (k : Kernel) (mm : Nat) (entry : Option MmStruct) : Kernel :=
  { k with mms := Function.update k.mms mm entry }

/-- `mm_create`, `setup_pgdir` and `mm_count_inc`, where the filling in between
succeeds. What fails in between is released on the spot. -/
def mmCreate (k : Kernel) : Kernel × Nat :=
  ({ setMm k k.next (some ⟨1⟩) with next := k.next + 1 }, k.next)

/-- `mm_count_dec`, and at zero `exit_mmap`, `put_pgdir` and `mm_destroy`. -/
def dropMm (k : Kernel) (mm : Nat) : Option Kernel :=
  (k.mms mm).map fun old =>
    setMm k mm (if old.mmCount - 1 = 0 then none else some ⟨old.mmCount - 1⟩)

/-- The mm the child gets, a kernel thread's none, or `none` for `-E_NO_MEM`. -/
def copyMm (k : Kernel) (current : Proc) (flags : CloneFlags) (memory : Memory) :
    Option (Kernel × Option (Option Nat)) :=
  match current.mm with
  | none => some (k, some none)
  | some oldmm =>
    if flags.vm then
      (k.mms oldmm).map fun old => (setMm k oldmm (some ⟨old.mmCount + 1⟩), some (some oldmm))
    else if memory.mm then
      let (k, mm) := mmCreate k
      some (k, some (some mm))
    else some (k, none)

/-- The files_struct the child gets, or `none` for `-E_NO_MEM`. -/
def copyFiles (k : Kernel) (current : Proc) (flags : CloneFlags) (memory : Memory) :
    Option (Kernel × Option Nat) := do
  let oldFilesp ← current.filesp
  if flags.fs then
    let k ← filesCountInc k oldFilesp
    return (k, some oldFilesp)
  else if memory.files then
    let (k, filesp) := filesCreate k
    let k ← dupFiles k filesp oldFilesp
    let k ← filesCountInc k filesp
    return (k, some filesp)
  else return (k, none)

def putFiles (k : Kernel) (filesp : Nat) : Option Kernel := do
  let files ← k.files filesp
  let k := setFiles k filesp (some { files with filesCount := files.filesCount - 1 })
  if files.filesCount - 1 = 0 then filesDestroy k filesp else return k

/-- `hash_proc` and `set_links`. -/
def setLinks (k : Kernel) (proc : Proc) : Kernel :=
  { k with procs := proc :: k.procs, nrProcess := k.nrProcess + 1 }

def doFork (k : Kernel) (current : Proc) (flags : CloneFlags) (memory : Memory) (pid : Int) :
    Option (Kernel × Int) :=
  if maxProcess ≤ k.nrProcess then some (k, -eNoFreeProc)
  else if !memory.proc then some (k, -eNoMem)
  else
    let (k, proc) := allocProc k
    let proc := { proc with parent := some current.addr }
    if !memory.kstack then some (kfreeProc k proc, -eNoMem)
    else
      let (k, proc) := setupKstack k proc
      (copyFiles k current flags memory).bind fun
      | (k, none) => some (kfreeProc (putKstack k proc) proc, -eNoMem)
      | (k, some filesp) =>
        (copyMm k current flags memory).bind fun
        | (k, none) =>
          (putFiles k filesp).map fun k => (kfreeProc (putKstack k proc) proc, -eNoMem)
        | (k, some mm) => some (setLinks k { proc with filesp := some filesp, mm, pid }, pid)

def kernelThread (k : Kernel) (current : Proc) (flags : CloneFlags) (memory : Memory) (pid : Int) :
    Option (Kernel × Int) :=
  doFork k current { flags with vm := true } memory pid

/-! ## Exit, exec and wait -/

def setProc (k : Kernel) (proc : Proc) : Kernel :=
  { k with procs := k.procs.map fun other => if other.addr = proc.addr then proc else other }

/-- The children go to `initproc` one by one, each to the head of its list. -/
def reparent (k : Kernel) (current : Nat) : Kernel :=
  { k with
    procs := (k.procs.filter fun proc => proc.parent = some current).reverse.map
        (fun proc => { proc with parent := k.initproc }) ++
      k.procs.filter fun proc => !(proc.parent = some current) }

/-- The mm of a process is given back, if it has one. -/
def releaseMm (k : Kernel) : Option Nat → Option Kernel
  | some mm => dropMm k mm
  | none => some k

def Proc.exited (proc : Proc) (errorCode : Int) : Proc :=
  { proc with mm := none, zombie := true, exitCode := errorCode }

def doExit (k : Kernel) (current : Proc) (errorCode : Int) : Option Kernel :=
  if current.addr = idleproc || k.initproc = some current.addr then none
  else
    let released := match current.mm, current.filesp with
      | some mm, some filesp => (dropMm k mm).bind fun k => putFiles k filesp
      | mm, _ => releaseMm k mm
    released.map fun k => reparent (setProc k (current.exited errorCode)) current.addr

/-- How `load_icode` ends, and on failure whether it had closed the file. -/
inductive Loaded where
  | done
  | failed (closed : Bool) (ret : Int)
  deriving DecidableEq

/-- The end of `do_execve` once the old mm is gone. -/
def loadIcode (k : Kernel) (current : Proc) (filesp fd : Nat) : Loaded → Option Kernel
  | .done => (fileClose k filesp fd).map fun k =>
    let (k, mm) := mmCreate k
    setProc k { current with mm := some mm }
  | .failed true ret => (fileClose k filesp fd).bind fun k => doExit k current ret
  | .failed false ret => doExit k current ret

/-- `badArguments` is the error of the copying of the arguments, `file` what
`sysfile_open` finds. -/
def doExecve (k : Kernel) (current : Proc) (badArguments : Option Int) (file : Except Int Nat)
    (loaded : Loaded) : Option Kernel :=
  match badArguments, current.filesp with
  | some _, _ => some k
  | none, none => none
  | none, some filesp =>
    (filesCloseall k filesp).bind fun k => (fileOpen k filesp file).bind fun
      | (k, .error ret) => doExit k current ret
      | (k, .ok fd) => (releaseMm k current.mm).bind fun k =>
        loadIcode k { current with mm := none } filesp fd loaded

def findProc (k : Kernel) (pid : Int) : Option Proc :=
  if 0 < pid && pid < maxPid then k.procs.find? fun proc => proc.pid = pid else none

def isChild (current : Proc) (proc : Proc) : Bool := proc.parent = some current.addr

/-- The children one pass of the loop of `do_wait` looks at. -/
def waitedFor (k : Kernel) (current : Proc) (pid : Int) : List Proc :=
  if pid = 0 then k.procs.filter (isChild current)
  else ((findProc k pid).filter (isChild current)).toList

/-- `remove_links`, `put_kstack` and `kfree`. -/
def reap (k : Kernel) (proc : Proc) : Kernel :=
  let k := { k with
    procs := k.procs.filter fun other => !(other.addr = proc.addr)
    nrProcess := k.nrProcess - 1 }
  kfreeProc (putKstack k proc) proc

inductive Waited where
  | reaped (exitCode : Int)
  | badProc
  | sleeping

def doWait (k : Kernel) (current : Proc) (pid : Int) : Option (Kernel × Waited) :=
  match (waitedFor k current pid).find? Proc.zombie with
  | some proc =>
    if proc.addr = idleproc || k.initproc = some proc.addr then none
    else some (reap k proc, .reaped proc.exitCode)
  | none => some (k, if (waitedFor k current pid).isEmpty then .badProc else .sleeping)

/-! ## The system -/

/-- A call of the process at an address. -/
inductive Event where
  | fork (flags : CloneFlags) (memory : Memory) (pid : Int)
  | kernelThread (flags : CloneFlags) (memory : Memory) (pid : Int)
  | exec (badArguments : Option Int) (file : Except Int Nat) (loaded : Loaded)
  | exit (errorCode : Int)
  | wait (pid : Int)
  | openFile (file : Except Int Nat)
  | closeFile (fd : Nat)
  | chdir (dir : Nat)

def currentAt (k : Kernel) (addr : Nat) : Option Proc :=
  k.procs.find? fun proc => proc.addr = addr && !proc.zombie

def call (k : Kernel) (current : Proc) : Event → Option Kernel
  | .fork flags memory pid => (doFork k current flags memory pid).map Prod.fst
  | .kernelThread flags memory pid => (kernelThread k current flags memory pid).map Prod.fst
  | .exec badArguments file loaded => doExecve k current badArguments file loaded
  | .exit errorCode => doExit k current errorCode
  | .wait pid => (doWait k current pid).map Prod.fst
  | .openFile file => current.filesp.bind fun filesp => (fileOpen k filesp file).map Prod.fst
  | .closeFile fd => current.filesp.bind fun filesp => fileClose k filesp fd
  | .chdir dir => current.filesp.bind fun filesp => vfsChdir k filesp dir

/-- An address without a live process has no call to make. -/
def step (k : Kernel) (event : Nat × Event) : Option Kernel :=
  match currentAt k event.1 with
  | some current => call k current event.2
  | none => some k

/-- `proc_init` up to idleproc's own set-up. -/
def idleInit (inodes : Nat → Inode) : Kernel where
  procs := [⟨idleproc, 0, none, none, none, some 1, false, 0⟩]
  nrProcess := 1
  initproc := none
  procStructs := Function.update (fun _ => false) idleproc true
  kstacks _ := false
  mms _ := none
  files := Function.update (fun _ => none) 1
    (some ⟨1, none, List.replicate filesStructNentry none⟩)
  inodes := inodes
  next := 2

/-- `proc_init`: idleproc creates `init_main` and `kpu_task_ctrl`. -/
def procInit (inodes : Nat → Inode) (pid kpuPid : Int) : Option Kernel :=
  let memory : Memory := ⟨true, true, true, true⟩
  (currentAt (idleInit inodes) idleproc).bind fun idle =>
    (kernelThread (idleInit inodes) idle ⟨false, false⟩ memory pid).bind fun init =>
      (kernelThread init.1 idle ⟨false, false⟩ memory kpuPid).bind fun kpu =>
        (findProc kpu.1 pid).map fun initproc => { kpu.1 with initproc := some initproc.addr }

end Ucore.Process
