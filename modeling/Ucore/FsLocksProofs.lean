import Ucore.FsLocks

/-! Every function of the file system takes the semaphores in the order of `Sem.rank`. Each lemma
says from which rank on its function takes them, and so below which semaphores it may be called.
The calls follow: no processes block one another in a circle (`fs_locks_ordered`). -/
namespace Ucore.FsLocks
open LockOrder
open scoped Computability

/-- The code takes semaphores from this rank on. -/
abbrev Takes (bound : Nat) (code : Locks) : Prop := Above Sem.rank bound code

variable {bound : Nat}

/-! ## Below the semaphore of the disk and that of the blocks -/

theorem dopIo_takes (low : bound ≤ 7) (dev : Device) : Takes bound (dopIo dev) := by
  cases dev with
  | disk0 => exact .early (.locked low .one)
  | stdin => exact .one
  | stdout => exact .one
  | kpuio => exact .one

theorem sfsRwblockNolock_takes (low : bound ≤ 7) (sfs : Sfs) : Takes bound (sfsRwblockNolock sfs) := dopIo_takes low sfs.dev

theorem sfsRwblock_takes (low : bound ≤ 6) (sfs : Sfs) : Takes bound (sfsRwblock sfs) :=
  .locked low (.kstar (sfsRwblockNolock_takes le_rfl sfs))

theorem sfsRbuf_takes (low : bound ≤ 6) (sfs : Sfs) : Takes bound (sfsRbuf sfs) := .locked low (sfsRwblockNolock_takes le_rfl sfs)

theorem sfsWbuf_takes (low : bound ≤ 6) (sfs : Sfs) : Takes bound (sfsWbuf sfs) :=
  .locked low (.mul (sfsRwblockNolock_takes le_rfl sfs) (.early (sfsRwblockNolock_takes le_rfl sfs)))

theorem sfsSyncSuper_takes (low : bound ≤ 6) (sfs : Sfs) : Takes bound (sfsSyncSuper sfs) :=
  .locked low (sfsRwblockNolock_takes le_rfl sfs)

theorem sfsClearBlock_takes (low : bound ≤ 6) (sfs : Sfs) : Takes bound (sfsClearBlock sfs) :=
  .locked low (.kstar (sfsRwblockNolock_takes le_rfl sfs))

theorem sfsBlockAlloc_takes (low : bound ≤ 6) (sfs : Sfs) : Takes bound (sfsBlockAlloc sfs) := .early (sfsClearBlock_takes low sfs)

theorem sfsBmapGetSubNolock_takes (low : bound ≤ 6) (sfs : Sfs) : Takes bound (sfsBmapGetSubNolock sfs) := by
  apply Above.mul
  · exact .add (.early (sfsRbuf_takes low sfs)) (sfsBlockAlloc_takes low sfs)
  · exact .early (.mul (sfsBlockAlloc_takes low sfs) (.early (sfsWbuf_takes low sfs)))

theorem sfsBmapLoadNolock_takes (low : bound ≤ 6) (sfs : Sfs) : Takes bound (sfsBmapLoadNolock sfs) :=
  .add (.early (sfsBlockAlloc_takes low sfs)) (sfsBmapGetSubNolock_takes low sfs)

theorem sfsBmapTruncateNolock_takes (low : bound ≤ 6) (sfs : Sfs) : Takes bound (sfsBmapTruncateNolock sfs) :=
  .early (.mul (sfsRbuf_takes low sfs) (.early (sfsWbuf_takes low sfs)))

theorem sfsDirentReadNolock_takes (low : bound ≤ 6) (sfs : Sfs) : Takes bound (sfsDirentReadNolock sfs) :=
  .mul (sfsBmapLoadNolock_takes low sfs) (.early (sfsRbuf_takes low sfs))

theorem sfsIoPart_takes {op : Sfs → Locks} (low : bound ≤ 6) (sfs : Sfs) (takes : Takes bound (op sfs)) : Takes bound (sfsIoPart sfs op) :=
  .early (.mul (sfsBmapLoadNolock_takes low sfs) (.early takes))

theorem sfsIoNolock_takes (low : bound ≤ 6) (sfs : Sfs) (write : Bool) : Takes bound (sfsIoNolock sfs write) := by
  have blocks := sfsRwblock_takes low sfs
  cases write with
  | false =>
    have bytes := sfsIoPart_takes low sfs (sfsRbuf_takes low sfs)
    exact .mul (.mul bytes (sfsIoPart_takes low sfs blocks)) bytes
  | true =>
    have bytes := sfsIoPart_takes low sfs (sfsWbuf_takes low sfs)
    exact .mul (.mul bytes (sfsIoPart_takes low sfs blocks)) bytes

/-! ## Below the semaphore of an inode -/

theorem sfsIo_takes (low : bound ≤ 5) (sin : Sin) (write : Bool) : Takes bound (sfsIo sin write) :=
  .locked low (sfsIoNolock_takes le_rfl sin.sfs write)

theorem sfsFsync_takes (low : bound ≤ 5) (sin : Sin) : Takes bound (sfsFsync sin) :=
  .early (.locked low (.early (sfsWbuf_takes le_rfl sin.sfs)))

theorem sfsGetdirentry_takes (low : bound ≤ 5) (sin : Sin) : Takes bound (sfsGetdirentry sin) :=
  .early (.locked low (.kstar (sfsDirentReadNolock_takes le_rfl sin.sfs)))

theorem sfsTruncfile_takes (low : bound ≤ 5) (sin : Sin) : Takes bound (sfsTruncfile sin) := by
  refine .early (.locked low (.add ?_ ?_))
  · exact .kstar (sfsBmapLoadNolock_takes le_rfl sin.sfs)
  · exact .kstar (sfsBmapTruncateNolock_takes le_rfl sin.sfs)

theorem vopTruncate_takes (low : bound ≤ 5) (node : Node) : Takes bound (vopTruncate node) := by
  cases node with
  | dir sin => exact .one
  | file sin => exact sfsTruncfile_takes low sin
  | device dev => exact .one

theorem vopFsync_takes (low : bound ≤ 5) (node : Node) : Takes bound (vopFsync node) := by
  cases node with
  | dir sin => exact sfsFsync_takes low sin
  | file sin => exact sfsFsync_takes low sin
  | device dev => exact .one

theorem vopClose_takes (low : bound ≤ 5) (node : Node) : Takes bound (vopClose node) := by
  cases node with
  | dir sin => exact sfsFsync_takes low sin
  | file sin => exact sfsFsync_takes low sin
  | device dev => exact .one

theorem vopRead_takes (low : bound ≤ 5) (node : Node) : Takes bound (vopRead node) := by
  cases node with
  | dir sin => exact .one
  | file sin => exact sfsIo_takes low sin false
  | device dev => exact dopIo_takes (low.trans (by decide)) dev

theorem vopWrite_takes (low : bound ≤ 5) (node : Node) : Takes bound (vopWrite node) := by
  cases node with
  | dir sin => exact .one
  | file sin => exact sfsIo_takes low sin true
  | device dev => exact dopIo_takes (low.trans (by decide)) dev

theorem vopGetdirentry_takes (low : bound ≤ 5) (node : Node) : Takes bound (vopGetdirentry node) := by
  cases node with
  | dir sin => exact sfsGetdirentry_takes low sin
  | file sin => exact .one
  | device dev => exact .one

theorem vopTryseek_takes (low : bound ≤ 5) (node : Node) : Takes bound (vopTryseek node) := by
  cases node with
  | dir sin => exact .one
  | file sin => exact .early (vopTruncate_takes low (.file sin))
  | device dev => exact .one

/-! ## Below the semaphore of the file system -/

theorem sfsLoadInode_takes (low : bound ≤ 4) (sfs : Sfs) : Takes bound (sfsLoadInode sfs) :=
  .locked low (.early (sfsRbuf_takes (show 5 ≤ 6 by decide) sfs))

/-- The semaphore of the directory is given back before that of the file system is taken. -/
theorem sfsLookupOnce_takes (low : bound ≤ 4) (sin : Sin) : Takes bound (sfsLookupOnce sin) := by
  apply Above.mul
  · exact .locked (low.trans (show 4 ≤ 5 by decide)) (.kstar (sfsDirentReadNolock_takes le_rfl sin.sfs))
  · exact .early (sfsLoadInode_takes low sin.sfs)

theorem sfsReclaim_takes (low : bound ≤ 4) (node : Node) (sin : Sin) : Takes bound (sfsReclaim node sin) :=
  .locked low (.mul (.early (vopTruncate_takes le_rfl node)) (.early (vopFsync_takes le_rfl node)))

theorem inodeRefDec_takes (low : bound ≤ 4) (node : Node) : Takes bound (inodeRefDec node) := by
  apply Above.early
  cases node with
  | dir sin => exact sfsReclaim_takes low (.dir sin) sin
  | file sin => exact sfsReclaim_takes low (.file sin) sin
  | device dev => exact .one

theorem inodeOpenDec_takes (low : bound ≤ 5) (node : Node) : Takes bound (inodeOpenDec node) := .early (vopClose_takes low node)

theorem vopLookup_takes (low : bound ≤ 4) (node : Node) : Takes bound (vopLookup node) := by
  cases node with
  | dir sin => exact .mul (.early (sfsLookupOnce_takes low sin)) (inodeRefDec_takes low (.dir sin))
  | file sin => exact .one
  | device dev => exact .one

theorem namefilePass_takes (low : bound ≤ 4) (sin parent : Sin) : Takes bound (namefilePass sin parent) := by
  refine .mul (.mul (sfsLookupOnce_takes low sin) (inodeRefDec_takes low (.dir sin))) ?_
  exact .locked (low.trans (show 4 ≤ 5 by decide)) (.kstar (sfsDirentReadNolock_takes le_rfl parent.sfs))

theorem sfsNamefile_takes (low : bound ≤ 4) : Takes bound sfsNamefile := by
  refine .early (.mul ?_ (.iSup fun sin => ?_))
  · exact .kstar (.iSup fun sin => .iSup fun parent => namefilePass_takes low sin parent)
  · have drops := inodeRefDec_takes low (.dir sin)
    exact .mul (.mul (.early (sfsLookupOnce_takes low sin)) (.early drops)) drops

theorem vopNamefile_takes (low : bound ≤ 4) (node : Node) : Takes bound (vopNamefile node) := by
  cases node with
  | dir sin => exact sfsNamefile_takes low
  | file sin => exact .one
  | device dev => exact .one

/-- The semaphore of the file system is given back before the superblock is written. -/
theorem sfsSync_takes (low : bound ≤ 4) (sfs : Sfs) : Takes bound (sfsSync sfs) := by
  have blocks : bound ≤ 6 := low.trans (by decide)
  apply Above.mul
  · exact .locked low (.kstar (.iSup fun node => vopFsync_takes le_rfl node))
  · exact .early (.mul (sfsSyncSuper_takes blocks sfs) (.early (sfsRwblock_takes blocks sfs)))

theorem sfsDoMount_takes (low : bound ≤ 7) (dev : Device) : Takes bound (sfsDoMount dev) :=
  .early (.mul (dopIo_takes low dev) (.early (.kstar (dopIo_takes low dev))))

/-! ## Below the semaphores of the devices and of the boot file system -/

theorem vfsCleanup_takes (low : bound ≤ 2) : Takes bound vfsCleanup :=
  .early (.locked low (.kstar (.iSup fun sfs => .kstar (sfsSync_takes (by decide) sfs))))

theorem vfsGetRoot_takes (low : bound ≤ 2) : Takes bound vfsGetRoot :=
  .early (.locked low (.early (.iSup fun sfs => sfsLoadInode_takes (by decide) sfs)))

theorem vfsDoAdd_takes (low : bound ≤ 2) : Takes bound vfsDoAdd := .early (.locked low .one)

theorem vfsMount_takes (low : bound ≤ 2) : Takes bound vfsMount :=
  .locked low (.early (.iSup fun dev => sfsDoMount_takes (by decide) dev))

theorem vfsUnmount_takes (low : bound ≤ 2) : Takes bound vfsUnmount :=
  .locked low (.early (.iSup fun sfs => sfsSync_takes (by decide) sfs))

theorem vfsUnmountAll_takes (low : bound ≤ 2) : Takes bound vfsUnmountAll :=
  .early (.locked low (.kstar (.iSup fun sfs => sfsSync_takes (by decide) sfs)))

theorem vfsGetBootfs_takes (low : bound ≤ 3) : Takes bound vfsGetBootfs := .early (.locked low .one)

theorem getDevice_takes (low : bound ≤ 2) : Takes bound getDevice := by
  have inodes : bound ≤ 4 := low.trans (by decide)
  refine .add (.add (.early (vfsGetRoot_takes low)) (vfsGetBootfs_takes (low.trans (by decide)))) ?_
  exact .iSup fun sfs => .iSup fun node => .mul (sfsLoadInode_takes inodes sfs) (inodeRefDec_takes inodes node)

theorem vfsLookup_takes (low : bound ≤ 2) : Takes bound vfsLookup := by
  have inodes : bound ≤ 4 := low.trans (by decide)
  apply Above.mul
  · exact getDevice_takes low
  · exact .early (.iSup fun node => .mul (vopLookup_takes inodes node) (inodeRefDec_takes inodes node))

theorem vfsGetcwd_takes (low : bound ≤ 4) : Takes bound vfsGetcwd :=
  .early (.iSup fun node => .mul (.early (vopNamefile_takes low node)) (inodeRefDec_takes low node))

theorem changeBootfs_takes (low : bound ≤ 3) : Takes bound changeBootfs :=
  .mul (.locked low .one) (.early (.iSup fun old => inodeRefDec_takes (low.trans (by decide)) old))

/-! ## Below the semaphore of the open files -/

theorem vfsSetCurdir_takes (low : bound ≤ 1) (filesp : Nat) : Takes bound (vfsSetCurdir filesp) :=
  .locked low (.early (.iSup fun oldDir => inodeRefDec_takes (show 2 ≤ 4 by decide) oldDir))

theorem vfsChdir_takes (low : bound ≤ 1) (filesp : Nat) : Takes bound (vfsChdir filesp) := by
  apply Above.mul
  · exact vfsLookup_takes (low.trans (by decide))
  · exact .early (.iSup fun node => .mul (vfsSetCurdir_takes low filesp) (inodeRefDec_takes (low.trans (by decide)) node))

theorem vfsSetBootfs_takes (low : bound ≤ 1) (filesp : Nat) : Takes bound (vfsSetBootfs filesp) :=
  .mul (.early (vfsChdir_takes low filesp)) (.early (changeBootfs_takes (low.trans (by decide))))

theorem vfsClose_takes (low : bound ≤ 4) (node : Node) : Takes bound (vfsClose node) :=
  .mul (inodeOpenDec_takes (low.trans (by decide)) node) (inodeRefDec_takes low node)

theorem vfsOpenNode_takes (low : bound ≤ 4) (node : Node) : Takes bound (vfsOpenNode node) := by
  apply Above.add
  · exact inodeRefDec_takes low node
  · exact .early (.mul (vopTruncate_takes (low.trans (by decide)) node) (.early (vfsClose_takes low node)))

theorem vfsOpen_takes (low : bound ≤ 2) : Takes bound vfsOpen := by
  refine .early (.mul (.mul (vfsLookup_takes low) (.early (getDevice_takes low))) (.early (.iSup fun node => ?_)))
  exact vfsOpenNode_takes (low.trans (by decide)) node

theorem fdArrayClose_takes (low : bound ≤ 4) (node : Node) : Takes bound (fdArrayClose node) :=
  .early (.early (vfsClose_takes low node))

theorem acquired_takes {op : Node → Locks} (low : bound ≤ 4) (takes : ∀ node, Takes bound (op node)) : Takes bound (acquired op) :=
  .early (.iSup fun node => .mul (takes node) (fdArrayClose_takes low node))

theorem fileOpen_takes (low : bound ≤ 2) : Takes bound fileOpen :=
  .early (.mul (vfsOpen_takes low) (.early (.iSup fun node => vfsClose_takes (low.trans (by decide)) node)))

theorem fileClose_takes (low : bound ≤ 4) : Takes bound fileClose := .early (.iSup fun node => fdArrayClose_takes low node)

theorem fileRead_takes (low : bound ≤ 4) : Takes bound fileRead :=
  acquired_takes low fun node => vopRead_takes (low.trans (by decide)) node

theorem fileWrite_takes (low : bound ≤ 4) : Takes bound fileWrite :=
  acquired_takes low fun node => vopWrite_takes (low.trans (by decide)) node

theorem fileSeek_takes (low : bound ≤ 4) : Takes bound fileSeek :=
  acquired_takes low fun node => .early (vopTryseek_takes (low.trans (by decide)) node)

theorem fileFstat_takes (low : bound ≤ 4) : Takes bound fileFstat := acquired_takes low fun _ => .one

theorem fileFsync_takes (low : bound ≤ 4) : Takes bound fileFsync :=
  acquired_takes low fun node => vopFsync_takes (low.trans (by decide)) node

theorem fileGetdirentry_takes (low : bound ≤ 4) : Takes bound fileGetdirentry :=
  acquired_takes low fun node => vopGetdirentry_takes (low.trans (by decide)) node

theorem filesCloseall_takes (low : bound ≤ 4) : Takes bound filesCloseall := .kstar (.iSup fun node => fdArrayClose_takes low node)

theorem filesDestroy_takes (low : bound ≤ 4) : Takes bound filesDestroy :=
  .mul (.early (.iSup fun pwd => inodeRefDec_takes low pwd)) (filesCloseall_takes low)

/-! ## Calls -/

theorem lockedMm_takes {body : Locks} (takes : ∀ bound ≤ 1, Takes bound body) (mm : Option Nat) : Takes 0 (lockedMm mm body) := by
  cases mm with
  | none => exact takes 0 (by decide)
  | some mm => exact .locked le_rfl (takes 1 le_rfl)

theorem copyUser_takes (mm : Option Nat) : Takes 0 (lockedMm mm 1) := lockedMm_takes (fun _ _ => .one) mm

theorem copyPath_takes (mm : Option Nat) : Takes 0 (copyPath mm) := .early (copyUser_takes mm)

theorem sysfileOpen_takes (mm : Option Nat) : Takes 0 (sysfileOpen mm) :=
  .mul (copyPath_takes mm) (.early (fileOpen_takes (by decide)))

theorem sysfileRead_takes (mm : Option Nat) : Takes 0 (sysfileRead mm) :=
  .early (.kstar (.mul (fileRead_takes (by decide)) (.early (copyUser_takes mm))))

theorem sysfileWrite_takes (mm : Option Nat) : Takes 0 (sysfileWrite mm) :=
  .early (.kstar (.mul (copyUser_takes mm) (.early (fileWrite_takes (by decide)))))

theorem sysfileGetcwd_takes (mm : Option Nat) : Takes 0 (sysfileGetcwd mm) :=
  .early (lockedMm_takes (fun _ low => .early (vfsGetcwd_takes (low.trans (by decide)))) mm)

theorem sysfileGetdirentry_takes (mm : Option Nat) : Takes 0 (sysfileGetdirentry mm) := by
  refine .early (.mul (copyUser_takes mm) (.early (.mul ?_ (.early (copyUser_takes mm)))))
  exact fileGetdirentry_takes (by decide)

theorem putFiles_takes : Takes 0 putFiles := .early (filesDestroy_takes (by decide))

theorem doFork_takes (mm : Option Nat) : Takes 0 (doFork mm) :=
  .early (.mul (.mul putFiles_takes (.early (.early (copyUser_takes mm)))) (.early putFiles_takes))

theorem doExit_takes : Takes 0 doExit := .early putFiles_takes

theorem loadIcode_takes : Takes 0 loadIcode := by
  apply Above.mul
  · exact .kstar (.mul (fileSeek_takes (by decide)) (.early (sysfileRead_takes none)))
  · exact .early (fileClose_takes (by decide))

theorem doExecve_takes (mm : Option Nat) : Takes 0 (doExecve mm) := by
  refine .early (.mul (copyUser_takes mm) (.early (.mul (.mul ?_ (.early loadIcode_takes)) (.early doExit_takes))))
  exact .mul (filesCloseall_takes (by decide)) (sysfileOpen_takes mm)

theorem systemCalls_takes (mm : Option Nat) (filesp : Nat) : Takes 0 (systemCalls mm filesp) := by
  have chdir : Takes 0 (sysfileChdir mm filesp) := .mul (copyPath_takes mm) (.early (vfsChdir_takes (by decide) filesp))
  have paths : Takes 0 (copyPath mm * (1 + copyPath mm)) := .mul (copyPath_takes mm) (.early (copyPath_takes mm))
  have stat : Takes 0 (sysfileFstat mm) := .mul (fileFstat_takes (by decide)) (.early (copyUser_takes mm))
  have onFiles : Takes 0 (sysfileOpen mm + sysfileClose + sysfileRead mm + sysfileWrite mm + sysfileSeek + sysfileFstat mm + sysfileFsync) := by
    refine .add (.add (.add (.add (.add (.add (sysfileOpen_takes mm) ?_) (sysfileRead_takes mm)) (sysfileWrite_takes mm)) ?_) stat) ?_
    · exact fileClose_takes (by decide)
    · exact fileSeek_takes (by decide)
    · exact fileFsync_takes (by decide)
  have onPaths := (((onFiles.add chdir).add paths).add paths).add (copyPath_takes mm)
  have onDirs := (onPaths.add (sysfileGetcwd_takes mm)).add (sysfileGetdirentry_takes mm)
  exact .add (.add (onDirs.add (doFork_takes mm)) doExit_takes) (doExecve_takes mm)

theorem kernelCalls_takes (filesp : Nat) : Takes 0 (kernelCalls filesp) := by
  refine .add (.add (.add (.add (.add ?_ ?_) ?_) ?_) ?_) ?_
  · exact vfsDoAdd_takes (by decide)
  · exact vfsMount_takes (by decide)
  · exact vfsSetBootfs_takes (by decide) filesp
  · exact vfsUnmount_takes (by decide)
  · exact vfsUnmountAll_takes (by decide)
  · exact vfsCleanup_takes (by decide)

theorem fsCalls_takes : Takes 0 fsCalls :=
  .iSup fun mm => .iSup fun filesp => .add (systemCalls_takes mm filesp) (kernelCalls_takes filesp)

/-! ## Runs -/

/-- Wherever the calls of any number of processes have got to, a process asks only for a semaphore
above all that it holds, so for none that it holds, and no processes wait for one another in a circle. -/
theorem fs_locks_ordered (π : Type) [DecidableEq π] (events : List (Event π Sem))
    (possible : Runs.Along step (Possible fsCalls) (boot π Sem) events) :
    ∃ final, Runs.run step (boot π Sem) events = some final ∧ final.Orderly Sem.rank := by
  obtain ⟨final, ran, ranked⟩ := Processes.boot_ranked.runs fsCalls_takes possible
  exact ⟨final, ran, ranked.orderly⟩

/-- As long as one of finitely many processes is in a call, one of them can go on. -/
theorem fs_goes_on (π : Type) [Finite π] [DecidableEq π] (events : List (Event π Sem))
    (possible : Runs.Along step (Possible fsCalls) (boot π Sem) events) :
    ∃ final, Runs.run step (boot π Sem) events = some final ∧
      ∀ p, final.todo p ≠ [] → ∃ q, Possible fsCalls final (.go q) := by
  obtain ⟨final, ran, ranked⟩ := Processes.boot_ranked.runs fsCalls_takes possible
  exact ⟨final, ran, fun p inside => ranked.goes inside⟩

/-- `vfs_unmount` while the file system has no inodes in memory. -/
def unmountWord (sfs : Sfs) : List (Act Sem) := [.down .vdevList, .down (.fs sfs), .up (.fs sfs), .up .vdevList]

theorem unmountWord_mem (sfs : Sfs) : unmountWord sfs ∈ fsCalls := by
  have sync : [.down (.fs sfs), .up (.fs sfs)] ∈ sfsSync sfs := by
    refine ⟨_, ⟨_, ⟨_, rfl, [], Language.nil_mem_kstar _, rfl⟩, _, rfl, rfl⟩, [], .inl rfl, rfl⟩
  have unmount : unmountWord sfs ∈ vfsUnmount :=
    ⟨_, ⟨_, rfl, _, .inr (Language.mem_iSup.mpr ⟨sfs, sync⟩), rfl⟩, _, rfl, rfl⟩
  apply Language.mem_iSup.mpr
  refine ⟨none, Language.mem_iSup.mpr ⟨0, .inr (.inl (.inl (.inr unmount)))⟩⟩

/-- Two processes unmount the disk, and the second waits for the first. -/
theorem unmounts_ordered : ∃ final, Runs.run step (boot Bool Sem)
    [.call true (unmountWord ⟨0, .disk0⟩), .call false (unmountWord ⟨0, .disk0⟩), .go true, .go true, .go false] = some final ∧
      final.Orderly Sem.rank := by
  apply fs_locks_ordered
  refine ⟨⟨rfl, unmountWord_mem _⟩, ?_⟩
  rintro _ ⟨⟩
  refine ⟨⟨rfl, unmountWord_mem _⟩, ?_⟩
  rintro _ ⟨⟩
  refine ⟨⟨by simp [unmountWord], by simp [boot]⟩, ?_⟩
  rintro _ ⟨⟩
  refine ⟨⟨by simp [Processes.enters], by simp [Processes.enters, boot, Semaphores.take]⟩, ?_⟩
  rintro _ ⟨⟩
  refine ⟨⟨by simp [Processes.enters, unmountWord], by simp [Processes.enters, boot, Semaphores.take]⟩, ?_⟩
  exact fun _ _ => trivial

end Ucore.FsLocks
