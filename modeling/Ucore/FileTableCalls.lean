import Ucore.FileTableProofs

/-! Every call on open files, and every step of one, keeps the tables in order. -/
namespace Ucore.FileTable
open Holdings Runs

variable {π τ ι : Type} [DecidableEq π] [DecidableEq τ] [DecidableEq ι] [Fintype π] [Fintype τ] {k after : Kernel π τ ι}
  {old : Frame τ ι} {p q : π} {t : τ} {ptr source : τ × Fd} {node : ι} {file changed : File ι}

/-! ## Finding an entry -/

theorem Stands.getFdArray (stands : Stands k p old) (shared : k.filesp p = some t) : FileTable.getFdArray k p = some t := by
  obtain ⟨files, found, positive⟩ := stands.table shared
  simp [FileTable.getFdArray, shared, found, positive]

theorem Stands.fd2file (stands : Stands k p old) (shared : k.filesp p = some t) (fd : Int) :
    FileTable.fd2file k p fd = some none ∨ ∃ ptr file, FileTable.fd2file k p fd = some (some ptr) ∧ ptr.1 = t ∧
      k.file ptr = some file ∧ file.status = .fdOpened := by
  cases tested : testfd fd with
  | none => exact .inl (by simp [FileTable.fd2file, tested])
  | some index =>
    obtain ⟨file, found⟩ := stands.entry (t, index) shared
    by_cases good : file.status = .fdOpened ∧ file.fd = index
    · refine .inr ⟨(t, index), file, ?_, rfl, found, good.1⟩
      simp [FileTable.fd2file, tested, stands.getFdArray shared, found, good]
    · refine .inl ?_
      simp only [FileTable.fd2file, tested, stands.getFdArray shared, Option.bind_eq_bind, Option.bind_some, found, if_neg good]
      rfl

/-- An entry that is free is given out to the call. -/
theorem Stands.alloc (stands : Stands k p .user) (shared : k.filesp p = some t) (fd : Int) :
    (∃ ret, fdArrayAlloc k p fd = some (k, .error ret)) ∨ ∃ ptr file, ptr.1 = t ∧ k.file ptr = some file ∧
      file.status = .fdNone ∧ fdArrayAlloc k p fd = some (k.setFile ptr { file with status := .fdInit, node := none }, .ok ptr) ∧
      ∀ flags, Stands (k.setFile ptr { file with status := .fdInit, node := none }) p (.opens ptr flags) := by
  have array := stands.getFdArray shared
  have free (index : Fd) (free : isFree k t index = true) : ∃ file, k.file (t, index) = some file ∧ file.status = .fdNone := by
    simpa [isFree, Option.any_eq_true] using free
  by_cases any : fd = noFd
  · cases search : (List.finRange filesStructNentry).find? (isFree k t) with
    | none => exact .inl ⟨-eMaxOpen, by simp [fdArrayAlloc, array, any, search]⟩
    | some index =>
      obtain ⟨file, there, status⟩ := free index (List.find?_some search)
      have shared' : k.filesp p = some (t, index).1 := shared
      refine .inr ⟨(t, index), file, rfl, there, status, ?_, fun flags => (stands.found shared' flags there status).2⟩
      simp [fdArrayAlloc, array, any, search, (stands.found shared' 0 there status).1]
  · cases tested : testfd fd with
    | none => exact .inl ⟨-eInval, by simp [fdArrayAlloc, array, any, tested]⟩
    | some index =>
      by_cases unused : isFree k t index = true
      · obtain ⟨file, there, status⟩ := free index unused
        have shared' : k.filesp p = some (t, index).1 := shared
        refine .inr ⟨(t, index), file, rfl, there, status, ?_, fun flags => (stands.found shared' flags there status).2⟩
        simp [fdArrayAlloc, array, any, tested, unused, (stands.found shared' 0 there status).1]
      · exact .inl ⟨-eBusy, by simp [fdArrayAlloc, array, any, tested, unused]⟩

/-! ## Opening -/

omit [Fintype π] [Fintype τ] [DecidableEq π] in
theorem opens_owner (ptr : τ × Fd) (flags : Nat) : (Frame.opens ptr flags : Frame τ ι).Owner (π := π) ptr :=
  ⟨fun _ => rfl, fun _ => rfl, fun _ => rfl, fun _ => rfl, fun _ => rfl, rfl, fun _ _ sits => sits⟩

omit [Fintype π] [Fintype τ] [DecidableEq π] in
theorem forgets_owner (ptr : τ × Fd) (ret : Int) : (Frame.forgets ptr ret : Frame τ ι).Owner (π := π) ptr :=
  ⟨fun _ => rfl, fun _ => rfl, fun _ => rfl, fun _ => rfl, fun _ => rfl, rfl, fun _ _ sits => sits⟩

theorem Stands.vfsFailed (stands : Stands k p old) (owner : old.Owner (π := π) ptr) (ret : Int) :
    Settles (FileTable.vfsFailed k p ptr ret) := by
  obtain ⟨after, freed, stands'⟩ := stands.given_back owner
  exact ⟨after.leave p ret, by simp [FileTable.vfsFailed, freed], stands'.leave ret⟩

theorem fileOpen_settles (stands : Stands k p .user) (shared : k.filesp p = some t) (flags : Nat) :
    Settles (fileOpen k p flags) := by
  by_cases bad : flags &&& oAccmode = oAccmode
  · exact ⟨k.leave p (-eInval), by simp [fileOpen, bad], stands.leave _⟩
  rcases stands.alloc shared noFd with ⟨ret, full⟩ | ⟨ptr, file, -, -, -, got, stands'⟩
  · exact ⟨k.leave p ret, by simp [fileOpen, bad, full], stands.leave _⟩
  · by_cases cut : flags &&& oTrunc ≠ 0 ∧ flags &&& oAccmode = 0
    · obtain ⟨after, freed, stands''⟩ := (stands' flags).given_back (opens_owner ptr flags)
      refine ⟨after.leave p (-eInval), ?_, stands''.leave _⟩
      simp only [fileOpen, if_neg bad, got, Option.bind_eq_bind, Option.bind_some, if_pos cut, freed]
      rfl
    · refine ⟨(k.setFile ptr { file with status := .fdInit, node := none }).goTo p (.opens ptr flags), ?_, (stands' flags).goTo⟩
      simp only [fileOpen, if_neg bad, got, Option.bind_eq_bind, Option.bind_some, if_neg cut]
      rfl

/-- An open that fails behind `vop_open` closes its inode. -/
theorem Stands.abandoned (stands : Stands k p (.truncates ptr flags node)) (room : Room k) (ret : Int) :
    ∃ after, vopOpenDec k node = some after ∧ Stands after p (.abandons ptr node ret) := by
  have positive : 0 < (k.inodes node).openCount := by
    have opens := stands.opens node
    rw [total_update] at opens
    simp only [Frame.opened, if_true] at opens
    omega
  have shared : k.filesp p = some ptr.1 := by
    have sits := stands.sits p
    rwa [Function.update_self] at sits
  refine ⟨_, vopOpenDec_eq positive (stands.check room node), ?_⟩
  refine stands.moves k.outside (fun other => ⟨rfl, rfl, rfl⟩) shared rfl (fun other => ?_) (fun other => ?_)
  · by_cases here : other = node
    · subst here
      simp [Frame.opened]
      omega
    · simp [here, Ne.symm here, Frame.opened]
  · by_cases here : other = node
    · subst here
      simp [Frame.refers]
    · simp [here, Ne.symm here, Frame.refers]

theorem fileOpened_settles (stands : Stands k p (.truncates ptr flags node)) (room : Room k) (stat : Except Int Int) :
    Settles (fileOpened k p ptr flags node stat) := by
  have shared : k.filesp p = some ptr.1 := by
    have sits := stands.sits p
    rwa [Function.update_self] at sits
  obtain ⟨file, found⟩ := stands.entry ptr shared
  have checked : flags &&& oAppend ≠ 0 → inodeCheck (k.inodes node) := fun _ => stands.check room node
  cases place : (if flags &&& oAppend ≠ 0 then stat else .ok 0 : Except Int Int) with
  | error ret =>
    obtain ⟨after, closed, stands'⟩ := stands.abandoned room ret
    refine ⟨after.goTo p (.abandons ptr node ret), ?_, stands'.goTo⟩
    simp only [fileOpened, guard, if_pos checked, place, Option.bind_eq_bind, Option.bind_some, closed, Option.pure_def]
  | ok pos =>
    obtain ⟨after, opened, stands'⟩ := stands.opened found (flags &&& oAccmode ≠ oWronly) (flags &&& oAccmode ≠ 0) pos
    refine ⟨after.leave p (ptr.2.val : Int), ?_, stands'.leave _⟩
    simp only [fileOpened, guard, if_pos checked, place, Option.bind_eq_bind, Option.bind_some, found, Option.pure_def]
    rw [opened, Option.bind_some]

/-- `vop_open` has opened the inode that was looked up. -/
theorem Stands.looked_up (stands : Stands k p (.opens ptr flags)) (held : 0 < k.outside node) :
    Stands (vopOpenInc { k with outside := Function.update k.outside node (k.outside node - 1) } node) p
      (.truncates ptr flags node) := by
  have sits := stands.sits p
  rw [Function.update_self] at sits
  refine stands.moves _ (fun other => ⟨rfl, rfl, rfl⟩) sits rfl (fun other => ?_) (fun other => ?_)
  · by_cases here : other = node
    · subst here
      simp [Frame.opened]
    · simp [here, Ne.symm here, Frame.opened]
  · by_cases here : other = node
    · subst here
      simp [Frame.refers]
      omega
    · simp [here, Ne.symm here, Frame.refers]

omit [DecidableEq τ] [Fintype π] [Fintype τ] [DecidableEq π] in
theorem Room.openInc (room : Room k) (outside : ι → Nat) (node : ι) : Room (vopOpenInc { k with outside } node) := by
  intro other
  by_cases here : other = node
  · subst here
    simpa [vopOpenInc, Kernel.setInode] using room other
  · simpa [vopOpenInc, Kernel.setInode, here] using room other

theorem vfsFound_settles (stands : Stands k p (.opens ptr flags)) (room : Room k) (held : 0 < k.outside node)
    (stat : Except Int Int) :
    Settles (vfsFound { k with outside := Function.update k.outside node (k.outside node - 1) } p ptr flags node stat) := by
  have check := stands.check room node
  have stands' := stands.looked_up held
  have room' := room.openInc (Function.update k.outside node (k.outside node - 1)) node
  by_cases cut : flags &&& oTrunc ≠ 0 ∨ flags &&& oCreat ≠ 0
  · refine ⟨_, ?_, stands'.goTo⟩
    simp only [vfsFound, guard, if_pos check, if_pos cut, if_pos (stands'.check room' node), Option.bind_eq_bind,
      Option.bind_some, Option.pure_def]
  · have same : vfsFound { k with outside := Function.update k.outside node (k.outside node - 1) } p ptr flags node stat =
        fileOpened (vopOpenInc { k with outside := Function.update k.outside node (k.outside node - 1) } node) p ptr flags
          node stat := by
      simp only [vfsFound, guard, if_pos check, if_neg cut, Option.bind_eq_bind, Option.bind_some, Option.pure_def]
    rw [same]
    exact fileOpened_settles stands' room' stat

theorem vfsTruncated_settles (stands : Stands k p (.truncates ptr flags node)) (room : Room k) (ret : Int)
    (stat : Except Int Int) : Settles (vfsTruncated k p ptr flags node ret stat) := by
  by_cases failed : ret ≠ 0
  · obtain ⟨after, closed, stands'⟩ := stands.abandoned room ret
    exact ⟨after.goTo p (.abandons ptr node ret), by simp [vfsTruncated, failed, closed], stands'.goTo⟩
  · rw [vfsTruncated, if_neg failed]
    exact fileOpened_settles stands room stat

/-! ## Using and closing -/

theorem Given.settles {rest : Rest} {goOn : Kernel π τ ι → Option (Kernel π τ ι)} {back : Frame τ ι}
    (given : Given k p ptr rest back result)
    (goes : ∀ after, Stands after p back → after.filesp = k.filesp → after.inodes = k.inodes → Settles (goOn after)) :
    Settles (givenUp p ptr rest goOn result) := by
  obtain ⟨after, _ | node⟩ := result
  · exact goes after given.1 given.2.1 given.2.2
  · exact ⟨after.goTo p (.closes ptr node rest), rfl, Stands.goTo given⟩

theorem fileClose_settles (stands : Stands k p .user) (room : Room k) (shared : k.filesp p = some t) (fd : Int) :
    Settles (fileClose k p fd) := by
  rcases stands.fd2file shared fd with none_there | ⟨ptr, file, there, rfl, found, status⟩
  · exact ⟨k.leave p (-eInval), by simp [fileClose, none_there], stands.leave _⟩
  · obtain ⟨result, closed, given, -⟩ := stands.closed (.done 0) room free_user found status (stands.apart (.inl shared))
      (fun _ => trivial) shared (fun _ => rfl)
    have whole : fileClose k p fd = givenUp p ptr (.done 0) (fun k => some (k.leave p 0)) result := by
      simp only [fileClose, there, Option.bind_eq_bind, Option.bind_some, closed]
    rw [whole]
    exact given.settles fun after stands' _ _ => ⟨after.leave p 0, rfl, stands'.leave 0⟩

/-- The file stays there for the call that acquires it. -/
theorem Stands.acquired (stands : Stands k p .user) (shared : k.filesp p = some ptr.1) (found : k.file ptr = some file)
    (status : file.status = .fdOpened) (there : file.node = some node) (use : Use) :
    fdArrayAcquire k ptr = some (k.setFile ptr { file with openCount := file.openCount + 1 }) ∧
      Stands (k.setFile ptr { file with openCount := file.openCount + 1 }) p (.uses ptr node use) := by
  have live : file.Live := .inl status
  have live' : ({ file with openCount := file.openCount + 1 } : File ι).Live := .inl status
  have again : (k.setFile ptr { file with openCount := file.openCount + 1 }).file ptr =
      some { file with openCount := file.openCount + 1 } := by
    rw [file_setFile found, Function.update_self]
  refine ⟨by simp [fdArrayAcquire, found, status], ?_⟩
  refine stands.changes found (stands.apart (.inl shared)) rfl (fun users owners freers fits => ?_) (fun other away => ?_)
    (.inl rfl) ⟨shared, _, again, there⟩ rfl (fun other => ?_) (fun other => ?_)
  · have mine : (Frame.uses ptr node use : Frame τ ι).users ptr = 1 := by simp [Frame.users]
    simp only [File.Fits, status] at fits
    simp only [File.Fits, status, mine]
    exact ⟨by simp only [Frame.users] at fits; omega, fits.2⟩
  · simp [Frame.users, Frame.owns, Frame.frees, Ne.symm away]
  · rw [fileHolds_live live, fileHolds_live live']
    rfl
  · rw [fileHolds_live live, fileHolds_live live']
    rfl

theorem Stands.done {use : Use} (stands : Stands k p (.uses ptr node use)) (room : Room k) (ret : Int) :
    ∃ result, fdArrayRelease k ptr = some result ∧
      Settles (givenUp p ptr (.done ret) (fun k => some (k.leave p ret)) result) := by
  obtain ⟨result, released, given⟩ := stands.released room ret
  exact ⟨result, released, given.settles fun after stands' _ _ => ⟨after.leave p ret, rfl, stands'.leave ret⟩⟩

theorem fileUse_settles (stands : Stands k p .user) (room : Room k) (shared : k.filesp p = some t) (fd : Int)
    (allows : File ι → Bool) (asks : Bool) (use : File ι → Except Int Use) : Settles (fileUse k p fd allows asks use) := by
  rcases stands.fd2file shared fd with none_there | ⟨ptr, file, there, rfl, found, status⟩
  · exact ⟨k.leave p (-eInval), by simp [fileUse, none_there], stands.leave _⟩
  by_cases allowed : allows file = true
  · obtain ⟨users, owners, freers, -, fits⟩ := stands.listed_at found
    simp only [File.Fits, status] at fits
    obtain ⟨node, there'⟩ := Option.isSome_iff_exists.mp fits.2.2.2
    have acquired := (stands.acquired shared found status there' .keep).1
    cases intent : use file with
    | ok use =>
      have stands' := (stands.acquired shared found status there' use).2
      refine ⟨(k.setFile ptr { file with openCount := file.openCount + 1 }).goTo p (.uses ptr node use), ?_, stands'.goTo⟩
      simp only [fileUse, there, Option.bind_eq_bind, Option.bind_some, found, allowed, if_true, acquired, there', guard,
        inodes_setFile, stands.check room node, implies_true, intent, Option.pure_def]
    | error ret =>
      have stands' := (stands.acquired shared found status there' .keep).2
      obtain ⟨result, released, settles⟩ := stands'.done room ret
      simp only [there'] at released
      have whole : fileUse k p fd allows asks use = givenUp p ptr (.done ret) (fun k => some (k.leave p ret)) result := by
        simp only [fileUse, there, Option.bind_eq_bind, Option.bind_some, found, allowed, if_true, acquired, there', guard,
          inodes_setFile, stands.check room node, implies_true, intent, released, Option.pure_def]
      rw [whole]
      exact settles
  · refine ⟨k.leave p (-eInval), ?_, stands.leave _⟩
    simp only [fileUse, there, Option.bind_eq_bind, Option.bind_some, found, if_neg allowed]
    rfl

/-- What a call does with its file behind the operation leaves the counts alone. -/
theorem Stands.settled {use : Use} (stands : Stands k p (.uses ptr node use)) (found : k.file ptr = some file) (ret copied : Int) :
    Stands (k.setFile ptr (use.settle ret copied file)) p (.uses ptr node use) := by
  have sits := stands.sits p
  rw [Function.update_self] at sits
  obtain ⟨shared, file', found', there⟩ := sits
  cases found.symm.trans found'
  have same : (use.settle ret copied file).status = file.status ∧ (use.settle ret copied file).openCount = file.openCount ∧
      (use.settle ret copied file).node = file.node ∧ (use.settle ret copied file).fd = file.fd := by
    cases use with
    | advance => by_cases status : file.status = .fdOpened <;> simp [Use.settle, status]
    | seek pos => by_cases ok : ret = 0 <;> simp [Use.settle, ok]
    | keep => exact ⟨rfl, rfl, rfl, rfl⟩
  obtain ⟨status, count, inode, index⟩ := same
  have again : (k.setFile ptr (use.settle ret copied file)).file ptr = some (use.settle ret copied file) := by
    rw [file_setFile found, Function.update_self]
  have holds (other : ι) : fileHolds (some (use.settle ret copied file)) other = fileHolds (some file) other := by
    simp [fileHolds, File.Live, status, count, inode]
  refine stands.changes found (stands.apart (.inl shared)) index (fun users owners freers fits => ?_) (fun _ _ => ⟨rfl, rfl, rfl⟩)
    (.inl inode) ⟨shared, _, again, inode.trans there⟩ rfl (fun other => ?_) (fun other => ?_)
  · simpa only [File.Fits, status, count, inode] using fits
  · rw [holds]
  · rw [holds]

theorem fileUsed_settles {use : Use} (stands : Stands k p (.uses ptr node use)) (room : Room k) (ret copied : Int) :
    Settles (fileUsed k p ptr use ret copied) := by
  have sits := stands.sits p
  rw [Function.update_self] at sits
  obtain ⟨-, file, found, -⟩ := sits
  obtain ⟨result, released, settles⟩ := (stands.settled found ret copied).done room ret
  have whole : fileUsed k p ptr use ret copied = givenUp p ptr (.done ret) (fun k => some (k.leave p ret)) result := by
    simp only [fileUsed, found, Option.bind_eq_bind, Option.bind_some, released]
  rw [whole]
  exact settles

/-! ## Duplicates -/

omit [DecidableEq τ] [Fintype π] [Fintype τ] [DecidableEq π] in
theorem vopInc_eq : vopOpenInc (vopRefInc k node) node =
    k.setInode node ⟨(k.inodes node).refCount + 1, (k.inodes node).openCount + 1⟩ := by
  simp [vopOpenInc, vopRefInc, Kernel.setInode]

/-- The copy of an open file. -/
def duplicate (toFile fromFile : File ι) : File ι :=
  { fromFile with status := .fdOpened, fd := toFile.fd, openCount := toFile.openCount + 1 }

omit [Fintype π] [Fintype τ] [DecidableEq π] in
theorem fdArrayDup_eq {toFile fromFile : File ι} (found : k.file ptr = some toFile) (found' : k.file source = some fromFile)
    (status : toFile.status = .fdInit) (status' : fromFile.status = .fdOpened) (there : fromFile.node = some node) :
    fdArrayDup k ptr source = some { k.setFile ptr (duplicate toFile fromFile) with
      inodes := Function.update k.inodes node ⟨(k.inodes node).refCount + 1, (k.inodes node).openCount + 1⟩ } := by
  have again (file : File ι) : ((k.setInode node ⟨(k.inodes node).refCount + 1, (k.inodes node).openCount + 1⟩).setFile ptr file).file
      ptr = some file := by
    rw [file_setFile (k := k.setInode node _) found, Function.update_self]
  simp only [fdArrayDup, found, found', Option.bind_eq_bind, Option.bind_some, guard, status, status', there, vopInc_eq]
  rw [fdArrayOpen_eq (again _) rfl rfl, setFile_setFile]
  simp only [duplicate, and_self, if_true, Option.pure_def, Option.bind_some, there]
  rfl

/-- An entry without a file gets one that is open elsewhere. -/
theorem Stands.duplicated {toFile : File ι} (stands : Stands k p old) (fromFile : File ι) (found : k.file ptr = some toFile)
    (closed : toFile.status = .fdNone ∨ toFile.status = .fdInit) (zero : toFile.openCount = 0)
    (there : fromFile.node = some node) (apart : ∀ q, q ≠ p → (k.frame q).destroys ≠ some ptr.1)
    (alone : ∀ users owners freers, toFile.Fits (users + old.users ptr) (owners + old.owns ptr) (freers + old.frees ptr) →
      users = 0 ∧ owners = 0 ∧ freers = 0)
    (marks : ∀ other, other ≠ ptr → old.users other = 0 ∧ old.owns other = 0 ∧ old.frees other = 0)
    (opened : ∀ other, old.opened other = 0) (refers : ∀ other, old.refers other = 0) (destroys : old.destroys = none) :
    Stands { k.setFile ptr (duplicate toFile fromFile) with
      inodes := Function.update k.inodes node ⟨(k.inodes node).refCount + 1, (k.inodes node).openCount + 1⟩ } p .user := by
  have live : (duplicate toFile fromFile).Live := .inl rfl
  have dead : ¬ toFile.Live := by
    rcases closed with status | status <;> simp [File.Live, status]
  refine stands.changes found apart rfl (fun users owners freers fits => ?_) (fun other away => ?_) (.inr closed)
    trivial destroys.symm (fun other => ?_) (fun other => ?_)
  · obtain ⟨rfl, rfl, rfl⟩ := alone users owners freers fits
    simp [File.Fits, duplicate, there, zero, Frame.users, Frame.owns, Frame.frees]
  · obtain ⟨users, owns, frees⟩ := marks other away
    rw [users, owns, frees]
    exact ⟨rfl, rfl, rfl⟩
  · rw [opened, fileHolds_dead dead, fileHolds_live live]
    by_cases here : other = node
    · subst here
      simp [duplicate, there, Frame.opened]
    · simp [here, Ne.symm here, duplicate, there, Frame.opened]
  · rw [refers, fileHolds_dead dead, fileHolds_live live]
    by_cases here : other = node
    · subst here
      simp [duplicate, there, Frame.refers]
    · simp [here, Ne.symm here, duplicate, there, Frame.refers]

theorem fileDup_settles (stands : Stands k p .user) (shared : k.filesp p = some t) (fd1 fd2 : Int) :
    Settles (fileDup k p fd1 fd2) := by
  rcases stands.fd2file shared fd1 with none_there | ⟨source, fromFile, there, rfl, found, status⟩
  · exact ⟨k.leave p (-eInval), by simp [fileDup, none_there], stands.leave _⟩
  obtain ⟨users, owners, freers, -, fits⟩ := stands.listed_at found
  simp only [File.Fits, status] at fits
  obtain ⟨node, inode⟩ := Option.isSome_iff_exists.mp fits.2.2.2
  rcases stands.alloc shared fd2 with ⟨ret, full⟩ | ⟨ptr, file, table, here, free, got, stands'⟩
  · exact ⟨k.leave p ret, by simp [fileDup, there, full], stands.leave _⟩
  · have away : source ≠ ptr := by
      rintro rfl
      cases found.symm.trans here
      rw [status] at free
      cases free
    have found' : (k.setFile ptr { file with status := .fdInit, node := none }).file source = some fromFile := by
      rw [file_setFile here, Function.update_of_ne away, found]
    have again : (k.setFile ptr { file with status := .fdInit, node := none }).file ptr =
        some { file with status := .fdInit, node := none } := by
      rw [file_setFile here, Function.update_self]
    have owner := opens_owner (π := π) (ι := ι) ptr 0
    have duplicated := fdArrayDup_eq again found' rfl status inode
    have stands'' := (stands' 0).duplicated fromFile again (.inr rfl)
      ((stands' 0).initial (by simp [Frame.owns]) again).2 inode ((stands' 0).apart (.inl (table ▸ shared)))
      (fun users owners freers fits => by
        simp only [File.Fits, owner.users, owner.owns, owner.frees, if_true] at fits
        omega)
      (fun other away => ⟨owner.users other, by rw [owner.owns, if_neg (Ne.symm away)], owner.frees other⟩)
      owner.opened owner.refers owner.destroys
    refine ⟨_, ?_, stands''.leave (ptr.2.val : Int)⟩
    simp only [fileDup, there, Option.bind_eq_bind, Option.bind_some, got, duplicated]
    rfl

/-! ## Tables -/

omit [DecidableEq ι] [Fintype π] [Fintype τ] [DecidableEq π] in
theorem file_setFiles {files table : FilesStruct ι} (found : k.files t = some files) (same : table.fdArray = files.fdArray) :
    (k.setFiles t (some table)).file = k.file := by
  funext ptr
  by_cases here : ptr.1 = t
  · simp [Kernel.file, Kernel.setFiles, here, found, same]
  · simp [Kernel.file, Kernel.setFiles, here]

omit [Fintype π] [DecidableEq π] in
theorem total_pwd {files : FilesStruct ι} (found : k.files t = some files) (table : Option (FilesStruct ι)) (node : ι) :
    total pwdHolds (k.setFiles t table).files node + pwdHolds (some files) node =
      total pwdHolds k.files node + pwdHolds table node := by
  rw [Kernel.setFiles, total_update, total_eq t, found]
  omega

omit [DecidableEq π] in
/-- A table changes, but for its entries. -/
theorem Sound.table {files table : FilesStruct ι} {frame : π → Frame τ ι} (sound : Sound k frame) (filesp : π → Option τ)
    (inodes : ι → Inode) (outside : ι → Nat) (found : k.files t = some files) (same : table.fdArray = files.fdArray)
    (count : table.filesCount = total shares filesp t)
    (others : ∀ other, other ≠ t → total shares filesp other = total shares k.filesp other)
    (there : ∀ q other, filesp q = some other → other = t ∨ k.filesp q = some other)
    (stays : ∀ q, (frame q).destroys = none → frame q = .user ∨ filesp q = k.filesp q)
    (ends : (∃ q, (frame q).destroys = some t) → Ends k t → table.filesCount = 0 ∧ table.pwd = none)
    (opens : ∀ node, (inodes node).openCount = (k.inodes node).openCount)
    (refs : ∀ node, (inodes node).refCount + (pwdHolds (some files) node + k.outside node) =
      (k.inodes node).refCount + (pwdHolds (some table) node + outside node)) :
    Sound { k.setFiles t (some table) with filesp := filesp, inodes := inodes, outside := outside } frame := by
  have file := file_setFiles found same
  constructor
  · intro ptr
    change Listed _ _ _ _ ((k.setFiles t (some table)).file ptr)
    rw [file]
    exact sound.listed ptr
  · intro other files' here
    by_cases at_t : other = t
    · subst at_t
      have same' : table = files' := by simpa [Kernel.setFiles] using here
      rw [← same']
      exact count
    · have here' : k.files other = some files' := by simpa [Kernel.setFiles, at_t] using here
      rw [sound.sharers other files' here', ← others other at_t]
  · intro q other shared
    by_cases at_t : other = t
    · simp [Kernel.setFiles, at_t]
    · have before := sound.there q other ((there q other shared).resolve_left at_t)
      simpa [Kernel.setFiles, at_t] using before
  · intro q
    have before := sound.sits q
    rcases Option.eq_none_or_eq_some (frame q).destroys with no_table | ⟨other, destroys⟩
    · rcases stays q no_table with user | stays
      · rw [user]
        trivial
      · exact before.kept file (fun _ => stays) fun other destroys => by
          rw [no_table] at destroys
          cases destroys
    · refine before.kept file (fun no_table => ?_) fun other' destroys' ends' => ?_
      · rw [destroys] at no_table
        cases no_table
      · by_cases at_t : other' = t
        · subst at_t
          exact ⟨table, by simp [Kernel.setFiles], ends ⟨q, destroys'⟩ ends'⟩
        · obtain ⟨files', here, idle⟩ := ends'
          exact ⟨files', by simpa [Kernel.setFiles, at_t] using here, idle⟩
  · exact sound.alone
  · intro node
    have before := sound.opens node
    change (inodes node).openCount = total fileHolds (k.setFiles t (some table)).file node + _
    rw [file, opens, before]
  · intro node
    have before := sound.refs node
    have pwd := total_pwd found (some table) node
    have change := refs node
    change (inodes node).refCount = total fileHolds (k.setFiles t (some table)).file node + _ +
      total pwdHolds (k.setFiles t (some table)).files node + outside node
    rw [file]
    omega

omit [Fintype τ] in
theorem shares_update (filesp : π → Option τ) (p : π) (now : Option τ) (t : τ) :
    total shares (Function.update filesp p now) t + shares (filesp p) t = total shares filesp t + shares now t := by
  rw [total_update, total_eq p]
  omega

omit [DecidableEq π] in
/-- References come and go outside. -/
theorem Sound.counts {frame : π → Frame τ ι} {inodes : ι → Inode} {outside : ι → Nat} (sound : Sound k frame)
    (opens : ∀ node, (inodes node).openCount = (k.inodes node).openCount)
    (refs : ∀ node, (inodes node).refCount + k.outside node = (k.inodes node).refCount + outside node) :
    Sound { k with inodes := inodes, outside := outside } frame := by
  refine ⟨sound.listed, sound.sharers, sound.there, fun q => (sound.sits q).congr rfl rfl, sound.alone, fun node => ?_,
    fun node => ?_⟩
  · exact (opens node).trans (sound.opens node)
  · have before := sound.refs node
    have change := refs node
    change (inodes node).refCount = total fileHolds k.file node + _ + total pwdHolds k.files node + outside node
    omega

omit [DecidableEq π] in
theorem Sound.below {frame : π → Frame τ ι} (sound : Sound k frame) (node : ι) :
    (k.inodes node).openCount + total pwdHolds k.files node + k.outside node ≤ (k.inodes node).refCount := by
  have opens := sound.opens node
  have refs := sound.refs node
  have held : total Frame.opened frame node ≤ total Frame.refers frame node := by
    apply Finset.sum_le_sum
    intro q _
    cases frame q <;> simp [Frame.opened, Frame.refers]
  omega

omit [DecidableEq π] in
theorem Sound.dropped {frame : π → Frame τ ι} (sound : Sound k frame) (held : 0 < k.outside node) :
    ∃ after, vopRefDec { k with outside := Function.update k.outside node (k.outside node - 1) } node = some after ∧
      after.frame = k.frame ∧ Sound after frame := by
  have below := sound.below node
  have less : (k.inodes node).openCount < (k.inodes node).refCount := by omega
  refine ⟨_, vopRefDec_eq less, rfl, sound.counts (fun other => ?_) fun other => ?_⟩
  · by_cases here : other = node
    · subst here
      simp
    · simp [here]
  · by_cases here : other = node
    · subst here
      simp
      omega
    · simp [here]

omit [DecidableEq π] in
theorem Sound.taken {frame : π → Frame τ ι} (sound : Sound k frame) (node : ι) :
    Sound { vopRefInc k node with outside := Function.update k.outside node (k.outside node + 1) } frame := by
  refine sound.counts (fun other => ?_) fun other => ?_
  · by_cases here : other = node
    · subst here
      simp [vopRefInc, Kernel.setInode]
    · simp [vopRefInc, Kernel.setInode, here]
  · by_cases here : other = node
    · subst here
      simp [vopRefInc, Kernel.setInode]
      omega
    · simp [vopRefInc, Kernel.setInode, here]

/-- The working directory becomes another one. -/
theorem Stands.moved {files : FilesStruct ι} (stands : Stands k p .user) (inodes : ι → Inode) (outside : ι → Nat)
    (found : k.files t = some files) (busy : 0 < files.filesCount) (pwd : Option ι)
    (opens : ∀ node, (inodes node).openCount = (k.inodes node).openCount)
    (refs : ∀ node, (inodes node).refCount + (pwdHolds (some files) node + k.outside node) =
      (k.inodes node).refCount + (pwdHolds (some { files with pwd }) node + outside node)) :
    Stands { k.setFiles t (some { files with pwd }) with inodes := inodes, outside := outside } p .user := by
  refine Sound.table stands _ inodes outside found rfl (stands.sharers t files found) (fun _ _ => rfl) (fun _ _ shared => .inr shared)
    (fun _ _ => .inr rfl) (fun _ ends => ?_) opens refs
  obtain ⟨files', found', zero, -⟩ := ends
  cases found.symm.trans found'
  omega

theorem vfsChdir_settles {dir : ι} (stands : Stands k p .user) (room : Room k) (shared : k.filesp p = some t)
    (held : 0 < k.outside dir) (isDir : Bool) : Settles (vfsChdir k p dir isDir) := by
  obtain ⟨files, found, busy⟩ := stands.table shared
  obtain ⟨after, dropped, frame, sound⟩ := Sound.dropped stands held
  have stands' : Stands after p .user := by
    rw [Stands, frame]
    exact sound
  by_cases same : files.pwd = some dir
  · refine ⟨after.leave p 0, ?_, stands'.leave 0⟩
    simp only [vfsChdir, shared, found, Option.bind_eq_bind, Option.bind_some, if_pos same, dropped]
    rfl
  have check := stands.check room dir
  cases isDir with
  | false =>
    refine ⟨after.leave p (-eNotDir), ?_, stands'.leave _⟩
    simp only [vfsChdir, shared, found, Option.bind_eq_bind, Option.bind_some, if_neg same, check, guard, if_true, dropped]
    rfl
  | true =>
    have below := Sound.below stands dir
    have last : (k.inodes dir).openCount < (k.inodes dir).refCount + 1 := by omega
    let moved := (vopRefInc { k with outside := Function.update k.outside dir (k.outside dir - 1) } dir).setFiles t
      (some { files with pwd := some dir })
    cases pwd : files.pwd with
    | none =>
      have dec : vopRefDec moved dir = some (moved.setInode dir { moved.inodes dir with refCount := (moved.inodes dir).refCount - 1 }) :=
        vopRefDec_eq (by simpa [moved, vopRefInc, Kernel.setInode, Kernel.setFiles] using last)
      refine ⟨_, ?_, (stands.moved
        (Function.update moved.inodes dir { moved.inodes dir with refCount := (moved.inodes dir).refCount - 1 })
        moved.outside found busy (some dir) (fun node => ?_) fun node => ?_).leave 0⟩
      · simp only [vfsChdir, shared, found, Option.bind_eq_bind, Option.bind_some, check, guard, if_true, pwd]
        exact congrArg (Option.bind · _) dec
      · by_cases here : node = dir
        · subst here
          simp [moved, vopRefInc, Kernel.setInode, Kernel.setFiles]
        · simp [moved, vopRefInc, Kernel.setInode, Kernel.setFiles, here]
      · by_cases here : node = dir
        · subst here
          simp [moved, vopRefInc, Kernel.setInode, Kernel.setFiles, pwdHolds, pwd]
          omega
        · simp [moved, vopRefInc, Kernel.setInode, Kernel.setFiles, here, Ne.symm here, pwdHolds, pwd]
    | some old =>
      have apart : old ≠ dir := fun here => same (pwd.trans (congrArg some here))
      have below' := Sound.below stands old
      have least : pwdHolds (k.files t) old ≤ total pwdHolds k.files old := le_total t
      simp only [found, pwdHolds, Option.mem_def, Option.some.injEq, exists_eq_left', pwd, if_true] at least
      have less : (k.inodes old).openCount < (k.inodes old).refCount := by omega
      have first : vopRefDec moved old = some (moved.setInode old { moved.inodes old with refCount := (moved.inodes old).refCount - 1 }) :=
        vopRefDec_eq (by simpa [moved, vopRefInc, Kernel.setInode, Kernel.setFiles, apart] using less)
      let left := moved.setInode old { moved.inodes old with refCount := (moved.inodes old).refCount - 1 }
      have second : vopRefDec left dir = some (left.setInode dir { left.inodes dir with refCount := (left.inodes dir).refCount - 1 }) :=
        vopRefDec_eq (by simpa [left, moved, vopRefInc, Kernel.setInode, Kernel.setFiles, apart.symm] using last)
      refine ⟨_, ?_, (stands.moved
        (Function.update left.inodes dir { left.inodes dir with refCount := (left.inodes dir).refCount - 1 })
        left.outside found busy (some dir) (fun node => ?_) fun node => ?_).leave 0⟩
      · simp only [vfsChdir, shared, found, Option.bind_eq_bind, Option.bind_some, if_neg (Option.some_injective _ |>.ne apart),
          check, guard, if_true, pwd]
        refine (congrArg (Option.bind · _) first).trans ?_
        exact congrArg (Option.bind · _) second
      · by_cases here : node = dir
        · subst here
          simp [left, moved, vopRefInc, Kernel.setInode, Kernel.setFiles, apart.symm]
        · by_cases there : node = old
          · subst there
            simp [left, moved, vopRefInc, Kernel.setInode, Kernel.setFiles, here]
          · simp [left, moved, vopRefInc, Kernel.setInode, Kernel.setFiles, here, there]
      · by_cases here : node = dir
        · subst here
          simp [left, moved, vopRefInc, Kernel.setInode, Kernel.setFiles, pwdHolds, pwd, apart, apart.symm]
          omega
        · by_cases there : node = old
          · subst there
            simp [left, moved, vopRefInc, Kernel.setInode, Kernel.setFiles, here, Ne.symm here, pwdHolds, pwd]
            omega
          · simp [left, moved, vopRefInc, Kernel.setInode, Kernel.setFiles, here, Ne.symm here, there, Ne.symm there, pwdHolds, pwd]

/-! ## Closing all -/

theorem closeallLoop_settles (stands : Stands k p .user) (room : Room k) (shared : k.filesp p = some t) (fds : List Fd) :
    Settles (closeallLoop p t k fds) := by
  induction fds generalizing k with
  | nil => exact ⟨k.goTo p .user, rfl, stands.goTo⟩
  | cons fd fds ih =>
    obtain ⟨file, found⟩ := stands.entry (t, fd) shared
    by_cases status : file.status = .fdOpened
    · obtain ⟨result, closed, given, -⟩ := stands.closed (.closeall fds) room free_user found status
        (stands.apart (.inl shared)) (fun _ => trivial) shared (fun _ => rfl)
      have whole : closeallLoop p t k (fd :: fds) =
          givenUp p (t, fd) (.closeall fds) (fun k => closeallLoop p t k fds) result := by
        simp only [closeallLoop, found, Option.bind_eq_bind, Option.bind_some, status, if_true, closed]
      rw [whole]
      refine given.settles fun after stands' filesp inodes => ih stands' (fun node => ?_) (by rw [filesp, shared])
      rw [inodes]
      exact room node
    · have whole : closeallLoop p t k (fd :: fds) = closeallLoop p t k fds := by
        simp only [closeallLoop, found, Option.bind_eq_bind, Option.bind_some, if_neg status]
      rw [whole]
      exact ih stands room shared

theorem filesCloseall_settles (stands : Stands k p .user) (room : Room k) (shared : k.filesp p = some t) :
    Settles (filesCloseall k p) := by
  obtain ⟨files, found, positive⟩ := stands.table shared
  have whole : filesCloseall k p = closeallLoop p t k ((List.finRange filesStructNentry).drop 2) := by
    simp [filesCloseall, shared, found, positive, guard]
  rw [whole]
  exact closeallLoop_settles stands room shared _

/-! ## The end of a table -/

omit [DecidableEq ι] [Fintype τ] [DecidableEq π] in
theorem shares_zero (none_share : total shares k.filesp t = 0) (q : π) : k.filesp q ≠ some t := by
  intro shared
  have zero := total_eq_zero.mp none_share q
  simp [shares, shared] at zero

/-- Nobody is at work on a table that ends, but for the process that destroys it. -/
theorem Stands.quiet (stands : Stands k p (.leaves t)) (fd : Fd) (q : π) :
    (Function.update k.frame p (.leaves t) q).users (t, fd) = 0 ∧ (Function.update k.frame p (.leaves t) q).owns (t, fd) = 0 ∧
      (Function.update k.frame p (.leaves t) q).frees (t, fd) = 0 := by
  have ends := stands.sits p
  rw [Function.update_self] at ends
  obtain ⟨files, found, zero, -⟩ := ends
  have count := stands.sharers t files found
  have none_share : total shares k.filesp t = 0 := by omega
  have nobody := shares_zero none_share q
  have sits := stands.sits q
  have alone := stands.alone p q t (by rw [Function.update_self]; rfl)
  by_cases here : q = p
  · rw [here, Function.update_self]
    exact ⟨rfl, rfl, rfl⟩
  rw [Function.update_of_ne here] at sits alone ⊢
  have away (ptr : τ × Fd) (shared : k.filesp q = some ptr.1) : ptr ≠ (t, fd) := by
    rintro rfl
    exact nobody shared
  cases place : k.frame q with
  | closes ptr node rest | drops ptr rest =>
    rw [place] at sits alone
    have apart : ptr ≠ (t, fd) := by
      cases rest with
      | destroy fds =>
        rintro rfl
        exact here (alone rfl).symm
      | _ => exact away ptr sits
    simp [Frame.users, Frame.owns, Frame.frees, apart]
  | uses ptr node use =>
    rw [place] at sits
    simp [Frame.users, Frame.owns, Frame.frees, away ptr sits.1]
  | opens ptr _ | truncates ptr _ _ | abandons ptr _ _ | forgets ptr _ =>
    rw [place] at sits
    simp [Frame.users, Frame.owns, Frame.frees, away ptr sits]
  | _ => exact ⟨rfl, rfl, rfl⟩

theorem Stands.ended {fd : Fd} (stands : Stands k p (.leaves t)) (found : k.file (t, fd) = some file) :
    file.status = .fdNone ∨ file.status = .fdOpened ∧ file.openCount = 1 := by
  have listed := stands.listed (t, fd)
  have users : total Frame.users (Function.update k.frame p (.leaves t)) (t, fd) = 0 :=
    total_eq_zero.mpr fun q => (stands.quiet fd q).1
  have owners : total Frame.owns (Function.update k.frame p (.leaves t)) (t, fd) = 0 :=
    total_eq_zero.mpr fun q => (stands.quiet fd q).2.1
  have freers : total Frame.frees (Function.update k.frame p (.leaves t)) (t, fd) = 0 :=
    total_eq_zero.mpr fun q => (stands.quiet fd q).2.2
  rw [users, owners, freers, found] at listed
  have fits := listed.2
  cases status : file.status <;> simp only [File.Fits, status, if_true] at fits
  · exact .inl rfl
  · omega
  · exact .inr ⟨rfl, by omega⟩
  · omega

omit [DecidableEq τ] [DecidableEq ι] [Fintype π] [Fintype τ] [DecidableEq π] in
/-- A call elsewhere goes on when a table goes. -/
theorem Sits.elsewhere (sits : Sits k q old) (apart : old.destroys ≠ some t) (outside : k.filesp q ≠ some t)
    (filesp : after.filesp q = k.filesp q) (files : ∀ other, other ≠ t → after.files other = k.files other) : Sits after q old := by
  have file (ptr : τ × Fd) (here : ptr.1 ≠ t) : after.file ptr = k.file ptr := by simp only [Kernel.file, files ptr.1 here]
  have ends (other : τ) (here : other ≠ t) (ends : Ends k other) : Ends after other := by
    obtain ⟨table, found, idle⟩ := ends
    exact ⟨table, (files other here).trans found, idle⟩
  cases old with
  | uses ptr node use =>
    have here : ptr.1 ≠ t := by
      rintro rfl
      exact outside sits.1
    exact ⟨filesp.trans sits.1, by rw [file ptr here]; exact sits.2⟩
  | closes ptr node rest | drops ptr rest =>
    cases rest with
    | destroy fds =>
      have here : ptr.1 ≠ t := fun here => apart (congrArg some here)
      exact ⟨ends ptr.1 here sits.1, fun fd outside => by rw [file (ptr.1, fd) here]; exact sits.2 fd outside⟩
    | _ => exact filesp.trans sits
  | leaves other => exact ends other (fun here => apart (congrArg some here)) sits
  | user => trivial
  | _ => exact filesp.trans sits

/-- `kfree` of a table whose entries are all free. -/
theorem Stands.freed (stands : Stands k p (.leaves t)) (emptied : Emptied k t []) : Stands (k.setFiles t none) p .user := by
  have ends := stands.sits p
  rw [Function.update_self] at ends
  obtain ⟨files, found, zero, pwd⟩ := ends
  have count := stands.sharers t files found
  have none_share : total shares k.filesp t = 0 := by omega
  have nobody (q : π) : k.filesp q ≠ some t := shares_zero none_share q
  have file (ptr : τ × Fd) : (k.setFiles t none).file ptr = if ptr.1 = t then none else k.file ptr := by
    by_cases here : ptr.1 = t <;> simp [Kernel.file, Kernel.setFiles, here]
  have holds (node : ι) : total fileHolds (k.setFiles t none).file node = total fileHolds k.file node := by
    apply Finset.sum_congr rfl
    intro ptr _
    rw [file]
    by_cases here : ptr.1 = t
    · obtain ⟨entry, there, status⟩ := emptied ptr.2 (by simp)
      rw [← here] at there
      rw [if_pos here, there, fileHolds_dead (by simp [File.Live, status])]
      rfl
    · rw [if_neg here]
  have same (mark : Frame τ ι → τ × Fd → Nat) (ptr : τ × Fd) (none_held : mark (.leaves t) ptr = mark .user ptr) :
      total mark (Function.update k.frame p .user) ptr = total mark (Function.update k.frame p (.leaves t)) ptr := by
    rw [total_update, total_update, none_held]
  change Sound (k.setFiles t none) (Function.update k.frame p .user)
  have alone (q : π) (here : q ≠ p) : (k.frame q).destroys ≠ some t := by
    intro destroys
    refine here (stands.alone p q t ?_ ?_).symm
    · rw [Function.update_self]
      rfl
    · rwa [Function.update_of_ne here]
  constructor
  · intro ptr
    rw [same Frame.users ptr rfl, same Frame.owns ptr rfl, same Frame.frees ptr rfl]
    have listed := stands.listed ptr
    change Listed _ _ _ _ ((k.setFiles t none).file ptr)
    rw [file]
    by_cases here : ptr.1 = t
    · obtain ⟨entry, there, status⟩ := emptied ptr.2 (by simp)
      rw [← here] at there
      rw [there] at listed
      have fits := listed.2
      simp only [File.Fits, status] at fits
      rw [if_pos here]
      exact fits.2
    · rw [if_neg here]
      exact listed
  · intro other files' there
    by_cases here : other = t
    · subst here
      simp [Kernel.setFiles] at there
    · exact stands.sharers other files' (by simpa [Kernel.setFiles, here] using there)
  · intro q other shared
    have here : other ≠ t := by
      rintro rfl
      exact nobody q shared
    simpa [Kernel.setFiles, here] using stands.there q other shared
  · intro q
    by_cases here : q = p
    · rw [here, Function.update_self]
      trivial
    · have sits := stands.sits q
      rw [Function.update_of_ne here] at sits ⊢
      refine sits.elsewhere (alone q here) (nobody q) rfl fun other away => ?_
      simp [Kernel.setFiles, away]
  · intro q r other first second
    have busy (q : π) (destroys : (Function.update k.frame p .user q).destroys = some other) :
        (Function.update k.frame p (.leaves t) q).destroys = some other := by
      by_cases here : q = p
      · subst here
        rw [Function.update_self] at destroys
        cases destroys
      · rwa [Function.update_of_ne here] at destroys ⊢
    exact stands.alone q r other (busy q first) (busy r second)
  · intro node
    have opens := stands.opens node
    rw [total_update] at opens ⊢
    rw [holds]
    exact opens
  · intro node
    have refs := stands.refs node
    have pwds := total_pwd found none node
    rw [total_update] at refs ⊢
    have none_held : pwdHolds (some files) node = 0 := by simp [pwdHolds, pwd]
    rw [none_held] at pwds
    have none_left : pwdHolds (none : Option (FilesStruct ι)) node = 0 := by simp [pwdHolds]
    have nothing : (Frame.user : Frame τ ι).refers node = (Frame.leaves t : Frame τ ι).refers node := rfl
    have same_inodes : (k.setFiles t none).inodes = k.inodes := rfl
    have same_outside : (k.setFiles t none).outside = k.outside := rfl
    rw [same_inodes, same_outside, holds, nothing]
    omega

/-- The loop of `files_destroy` closes what is open and frees the table. -/
theorem destroyLoop_settles (stands : Stands k p (.leaves t)) (room : Room k) (fds : List Fd) (emptied : Emptied k t fds) :
    Settles (destroyLoop p t k fds) := by
  have ends := stands.sits p
  rw [Function.update_self] at ends
  obtain ⟨files, found, -⟩ := id ends
  induction fds with
  | nil => exact ⟨(k.setFiles t none).goTo p .user, rfl, (stands.freed emptied).goTo⟩
  | cons fd fds ih =>
    have there : k.file (t, fd) = some (files.fdArray fd) := by simp [Kernel.file, found]
    rcases stands.ended there with status | ⟨status, once⟩
    · have whole : destroyLoop p t k (fd :: fds) = destroyLoop p t k fds := by
        simp [destroyLoop, there, status, guard]
      rw [whole]
      refine ih fun other outside => ?_
      by_cases here : other = fd
      · subst here
        exact ⟨_, there, status⟩
      · exact emptied other (by simp [here, outside])
    · obtain ⟨result, closed, given, more⟩ := stands.closed (.destroy fds) room (free_leaves t) there status
        (stands.apart (.inr rfl)) (fun _ => Ends.setFile ends) ⟨ends, emptied⟩ (fun _ => rfl)
      obtain ⟨after, _ | node⟩ := result
      · have twice := more rfl
        omega
      · refine ⟨after.goTo p (.closes (t, fd) node (.destroy fds)), ?_, Stands.goTo given⟩
        simp only [destroyLoop, there, Option.bind_eq_bind, Option.bind_some, status, if_true, closed]
        rfl

/-- The last process of a table is about to destroy it. -/
theorem Stands.begins (stands : Stands k p .user) (ends : Ends k t) (alone : ∀ q, q ≠ p → (k.frame q).destroys ≠ some t) :
    Stands k p (.leaves t) := by
  have same (mark : Frame τ ι → τ × Fd → Nat) (ptr : τ × Fd) (none_held : mark (.leaves t) ptr = mark .user ptr) :
      total mark (Function.update k.frame p (.leaves t)) ptr = total mark (Function.update k.frame p .user) ptr := by
    rw [total_update, total_update, none_held]
  refine ⟨fun ptr => ?_, stands.sharers, stands.there, fun q => ?_, fun q r other first second => ?_, fun node => ?_, fun node => ?_⟩
  · rw [same Frame.users ptr rfl, same Frame.owns ptr rfl, same Frame.frees ptr rfl]
    exact stands.listed ptr
  · by_cases here : q = p
    · rw [here, Function.update_self]
      exact ends
    · have sits := stands.sits q
      rwa [Function.update_of_ne here] at sits ⊢
  · by_cases hereq : q = p <;> by_cases herer : r = p
    · rw [hereq, herer]
    · rw [hereq, Function.update_self] at first
      cases first
      rw [Function.update_of_ne herer] at second
      exact absurd second (alone r herer)
    · rw [herer, Function.update_self] at second
      cases second
      rw [Function.update_of_ne hereq] at first
      exact absurd first (alone q hereq)
    · refine stands.alone q r other ?_ ?_
      · rwa [Function.update_of_ne hereq] at first ⊢
      · rwa [Function.update_of_ne herer] at second ⊢
  · have opens := stands.opens node
    rw [total_update] at opens ⊢
    exact opens
  · have refs := stands.refs node
    rw [total_update] at refs ⊢
    exact refs

theorem filesDestroy_settles {files : FilesStruct ι} (stands : Stands k p .user) (room : Room k) (found : k.files t = some files)
    (zero : files.filesCount = 0) (alone : ∀ q, q ≠ p → (k.frame q).destroys ≠ some t) : Settles (filesDestroy k p t) := by
  cases pwd : files.pwd with
  | none =>
    have whole : filesDestroy k p t = destroyLoop p t k (List.finRange filesStructNentry) := by
      simp [filesDestroy, found, zero, pwd, guard]
    rw [whole]
    exact destroyLoop_settles (stands.begins ⟨files, found, zero, pwd⟩ alone) room _ fun fd outside =>
      absurd (List.mem_finRange fd) outside
  | some dir =>
    have below := Sound.below stands dir
    have least : pwdHolds (k.files t) dir ≤ total pwdHolds k.files dir := le_total t
    simp only [found, pwdHolds, Option.mem_def, Option.some.injEq, exists_eq_left', pwd, if_true] at least
    have less : (k.inodes dir).openCount < (k.inodes dir).refCount := by omega
    have dropped := vopRefDec_eq (k := k) less
    let inodes := Function.update k.inodes dir { k.inodes dir with refCount := (k.inodes dir).refCount - 1 }
    have stands' : Stands { k.setFiles t (some { files with pwd := none }) with inodes := inodes } p .user := by
      refine Sound.table stands k.filesp inodes k.outside found rfl (stands.sharers t files found)
        (fun _ _ => rfl) (fun _ _ shared => .inr shared) (fun _ _ => .inr rfl) (fun _ ends => ?_) (fun node => ?_) fun node => ?_
      · obtain ⟨files', found', -, none_there⟩ := ends
        cases found.symm.trans found'
        rw [pwd] at none_there
        cases none_there
      · by_cases here : node = dir
        · subst here
          simp [inodes]
        · simp [inodes, here]
      · by_cases here : node = dir
        · subst here
          simp [inodes, pwdHolds, pwd]
          omega
        · simp [inodes, here, Ne.symm here, pwdHolds, pwd]
    have begun := stands'.begins (t := t) ⟨{ files with pwd := none }, by simp [Kernel.setFiles], zero, rfl⟩ alone
    refine ⟨_, ?_, begun.goTo⟩
    simp only [filesDestroy, found, Option.bind_eq_bind, Option.bind_some, guard, zero, if_true, pwd, dropped]
    rfl

omit [DecidableEq τ] [Fintype π] [Fintype τ] [DecidableEq π] in
theorem pwdHolds_some (files : FilesStruct ι) (node : ι) :
    pwdHolds (some files) node = if files.pwd = some node then 1 else 0 := by
  simp [pwdHolds]

omit [DecidableEq τ] [DecidableEq ι] [Fintype π] [Fintype τ] [DecidableEq π] in
theorem not_ends {files : FilesStruct ι} (found : k.files t = some files) (busy : 0 < files.filesCount) : ¬ Ends k t := by
  rintro ⟨files', found', zero, -⟩
  cases found.symm.trans found'
  omega

/-- `put_files` of a process that exits. -/
theorem putFiles_settles (stands : Stands k p .user) (room : Room k) (shared : k.filesp p = some t) :
    Settles (putFiles { k with filesp := Function.update k.filesp p none } p t) := by
  obtain ⟨files, found, busy⟩ := stands.table shared
  let filesp := Function.update k.filesp p none
  have count := stands.sharers t files found
  have fewer := shares_update k.filesp p none
  have stands' : Stands { k.setFiles t (some { files with filesCount := files.filesCount - 1 }) with filesp := filesp } p .user := by
    refine Sound.table stands filesp k.inodes k.outside found rfl ?_ (fun other away => ?_)
      (fun q other here => .inr ?_) (fun q _ => ?_) (fun _ ends => absurd ends (not_ends found busy)) (fun _ => rfl)
      fun _ => by simp only [pwdHolds_some]
    · have less := fewer t
      simp only [shares, shared, if_true, reduceCtorEq, if_false] at less
      simp only [filesp]
      omega
    · have less := fewer other
      simp only [shares, shared, Option.some.injEq, Ne.symm away, reduceCtorEq, if_false] at less
      exact less
    · by_cases mine : q = p
      · subst mine
        simp [filesp] at here
      · simpa [filesp, mine] using here
    · by_cases mine : q = p
      · subst mine
        exact .inl (Function.update_self ..)
      · exact .inr (Function.update_of_ne mine ..)
  by_cases last : files.filesCount - 1 = 0
  · have found' : { k.setFiles t (some { files with filesCount := files.filesCount - 1 }) with filesp := filesp }.files t =
        some { files with filesCount := files.filesCount - 1 } := Function.update_self ..
    have settles := filesDestroy_settles stands' room found' last (stands.apart (.inl shared))
    have whole : putFiles { k with filesp := filesp } p t =
        filesDestroy { k.setFiles t (some { files with filesCount := files.filesCount - 1 }) with filesp := filesp } p t := by
      simp only [putFiles, found, Option.bind_eq_bind, Option.bind_some, if_pos last]
      rfl
    rw [whole]
    exact settles
  · refine ⟨_, ?_, stands'.goTo⟩
    simp only [putFiles, found, Option.bind_eq_bind, Option.bind_some, if_neg last]
    rfl

/-! ## Sharing and copying -/

/-- A new process shares a table. -/
theorem Sound.shared {files : FilesStruct ι} (sound : Sound k k.frame) (child : π) (found : k.files t = some files)
    (idle : (k.frame child) = .user) (fresh : k.filesp child = none) (apart : ∀ q, (k.frame q).destroys ≠ some t) :
    Sound { k.setFiles t (some { files with filesCount := files.filesCount + 1 }) with
      filesp := Function.update k.filesp child (some t) } k.frame := by
  have count := sound.sharers t files found
  have more := shares_update k.filesp child (some t)
  refine sound.table _ k.inodes k.outside found rfl ?_ (fun other away => ?_)
    (fun q other here => ?_) (fun q _ => ?_) (fun ends _ => ?_) (fun _ => rfl) fun _ => by simp only [pwdHolds_some]
  · have one := more t
    simp only [shares, fresh, reduceCtorEq, if_false, if_true] at one
    simp only [count]
    omega
  · have same := more other
    simp only [shares, fresh, reduceCtorEq, if_false, Option.some.injEq, Ne.symm away] at same
    exact same
  · by_cases mine : q = child
    · subst mine
      rw [Function.update_self] at here
      exact .inl (Option.some.inj here).symm
    · rw [Function.update_of_ne mine] at here
      exact .inr here
  · by_cases mine : q = child
    · subst mine
      exact .inl idle
    · exact .inr (Function.update_of_ne mine ..)
  · obtain ⟨q, destroys⟩ := ends
    exact absurd destroys (apart q)

omit [DecidableEq π] in
/-- An empty table at an address that is free. -/
theorem Sound.created (sound : Sound k k.frame) (free : k.files t = none) : Sound (filesCreate k t) k.frame := by
  have nobody (q : π) : k.filesp q ≠ some t := by
    intro shared
    have there := sound.there q t shared
    simp [free] at there
  have file (ptr : τ × Fd) : (filesCreate k t).file ptr = if ptr.1 = t then some (fdArrayInit ptr.2) else k.file ptr := by
    by_cases here : ptr.1 = t <;> simp [filesCreate, Kernel.file, Kernel.setFiles, here]
  have gone (ptr : τ × Fd) (here : ptr.1 = t) : k.file ptr = none := by simp [Kernel.file, here, free]
  have dead (fd : Fd) : ¬ (fdArrayInit fd : File ι).Live := by simp [File.Live, fdArrayInit]
  have holds (node : ι) : total fileHolds (filesCreate k t).file node = total fileHolds k.file node := by
    apply Finset.sum_congr rfl
    intro ptr _
    rw [file]
    by_cases here : ptr.1 = t
    · rw [if_pos here, fileHolds_dead (dead _), gone ptr here]
      rfl
    · rw [if_neg here]
  have pwds (node : ι) : total pwdHolds (filesCreate k t).files node = total pwdHolds k.files node := by
    apply Finset.sum_congr rfl
    intro other _
    by_cases here : other = t
    · subst here
      simp [filesCreate, Kernel.setFiles, pwdHolds, free]
    · simp [filesCreate, Kernel.setFiles, here]
  refine ⟨fun ptr => ?_, fun other files here => ?_, fun q other shared => ?_, fun q => ?_, sound.alone, fun node => ?_,
    fun node => ?_⟩
  · have listed := sound.listed ptr
    rw [file]
    by_cases here : ptr.1 = t
    · rw [gone ptr here] at listed
      rw [if_pos here]
      exact ⟨rfl, rfl, listed⟩
    · rwa [if_neg here]
  · by_cases at_t : other = t
    · subst at_t
      have new : (⟨none, fdArrayInit, 0⟩ : FilesStruct ι) = files := by simpa [filesCreate, Kernel.setFiles] using here
      have zero : total shares k.filesp other = 0 := total_eq_zero.mpr fun q => by simp [shares, nobody q]
      rw [← new]
      exact (congrArg Nat.cast zero).symm
    · exact sound.sharers other files (by simpa [filesCreate, Kernel.setFiles, at_t] using here)
  · have here : other ≠ t := by
      rintro rfl
      exact nobody q shared
    simpa [filesCreate, Kernel.setFiles, here] using sound.there q other shared
  · refine (sound.sits q).elsewhere (t := t) (fun destroys => ?_) (nobody q) rfl fun other away => ?_
    · obtain ⟨files, there, -⟩ := sound.destroyed q destroys
      rw [free] at there
      cases there
    · simp [filesCreate, Kernel.setFiles, away]
  · rw [holds]
    exact sound.opens node
  · rw [holds, pwds]
    exact sound.refs node

/-- Both tables stay, and no inode gets more references than files are copied. -/
structure Copied (before after : Kernel π τ ι) (t : τ) (files : Nat) : Prop where
  frame : after.frame = before.frame
  filesp : after.filesp = before.filesp
  table : ∃ table, after.files t = some table ∧ table.filesCount = 0
  refs : ∀ node, (after.inodes node).refCount ≤ (before.inodes node).refCount + files

theorem dupLoop_copies (stands : Stands k p .user) (source : τ) (away : t ≠ source) (there : (k.files source).isSome)
    (table : ∃ table, k.files t = some table ∧ table.filesCount = 0) (alone : ∀ q, q ≠ p → (k.frame q).destroys ≠ some t)
    (fds : List Fd) (distinct : fds.Nodup) (free : ∀ fd ∈ fds, ∃ file, k.file (t, fd) = some file ∧ file.status = .fdNone) :
    ∃ after, dupLoop t source k fds = some after ∧ Stands after p .user ∧ Copied k after t fds.length := by
  induction fds generalizing k with
  | nil => exact ⟨k, rfl, stands, rfl, rfl, table, fun _ => Nat.le_refl _⟩
  | cons fd fds ih =>
    obtain ⟨fromFiles, found⟩ := Option.isSome_iff_exists.mp there
    obtain ⟨fresh, distinct⟩ := List.nodup_cons.mp distinct
    have fromFile : k.file (source, fd) = some (fromFiles.fdArray fd) := by simp [Kernel.file, found]
    by_cases status : (fromFiles.fdArray fd).status = .fdOpened
    · obtain ⟨toFile, here, closed⟩ := free fd List.mem_cons_self
      obtain ⟨users, owners, freers, -, fits⟩ := stands.listed_at fromFile
      simp only [File.Fits, status] at fits
      obtain ⟨node, inode⟩ := Option.isSome_iff_exists.mp fits.2.2.2
      obtain ⟨users', owners', freers', -, fits'⟩ := stands.listed_at here
      simp only [File.Fits, closed] at fits'
      have apart : (source, fd) ≠ (t, fd) := fun same => away (congrArg Prod.fst same).symm
      have again : (k.setFile (t, fd) { toFile with status := .fdInit }).file (t, fd) = some { toFile with status := .fdInit } := by
        rw [file_setFile here, Function.update_self]
      have fromFile' : (k.setFile (t, fd) { toFile with status := .fdInit }).file (source, fd) = some (fromFiles.fdArray fd) := by
        rw [file_setFile here, Function.update_of_ne apart, fromFile]
      have duplicated := fdArrayDup_eq again fromFile' rfl status inode
      rw [setFile_setFile] at duplicated
      have stands' := stands.duplicated (fromFiles.fdArray fd) here (.inl closed) fits'.1 inode alone
        (fun users owners freers fits => by
          simp only [File.Fits, closed] at fits
          exact ⟨fits.2.1, fits.2.2.1, fits.2.2.2⟩)
        (fun _ _ => ⟨rfl, rfl, rfl⟩) (fun _ => rfl) (fun _ => rfl) rfl
      let next : Kernel π τ ι := { k.setFile (t, fd) (duplicate toFile (fromFiles.fdArray fd)) with
        inodes := Function.update k.inodes node ⟨(k.inodes node).refCount + 1, (k.inodes node).openCount + 1⟩ }
      have table' : ∃ table, next.files t = some table ∧ table.filesCount = 0 := by
        obtain ⟨table, old, zero⟩ := table
        have stays : (next.files t).isSome := (isSome_setFile t).trans (by simp [old])
        obtain ⟨table', new⟩ := Option.isSome_iff_exists.mp stays
        obtain ⟨before, old', count, -⟩ := files_setFile t table' new
        cases old.symm.trans old'
        exact ⟨table', new, count.trans zero⟩
      have free' (other : Fd) (inside : other ∈ fds) : ∃ file, next.file (t, other) = some file ∧ file.status = .fdNone := by
        have apart : (t, other) ≠ (t, fd) := by
          rintro ⟨⟩
          exact fresh inside
        change ∃ file, (k.setFile (t, fd) _).file (t, other) = some file ∧ _
        rw [file_setFile here, Function.update_of_ne apart]
        exact free other (List.mem_cons_of_mem _ inside)
      obtain ⟨after, ran, stands'', copied⟩ := ih (k := next) stands' ((isSome_setFile source).trans there) table' alone distinct free'
      have whole : dupLoop t source k (fd :: fds) = dupLoop t source next fds := by
        simp only [dupLoop, fromFile, Option.bind_eq_bind, Option.bind_some, status, if_true, here]
        exact congrArg (Option.bind · _) duplicated
      refine ⟨after, whole.trans ran, stands'', copied.frame, copied.filesp, copied.table, fun other => ?_⟩
      have later := copied.refs other
      have grown : (next.inodes other).refCount ≤ (k.inodes other).refCount + 1 := by
        by_cases same : other = node
        · subst same
          simp [next]
        · simp [next, same]
      simp only [List.length_cons]
      omega
    · have whole : dupLoop t source k (fd :: fds) = dupLoop t source k fds := by
        simp only [dupLoop, fromFile, Option.bind_eq_bind, Option.bind_some, if_neg status]
      obtain ⟨after, ran, stands', copied⟩ := ih stands there table alone distinct fun fd inside => free fd (List.mem_cons_of_mem _ inside)
      exact ⟨after, whole.trans ran, stands', copied.frame, copied.filesp, copied.table, fun node =>
        (copied.refs node).trans (by simp)⟩

/-- The inodes when a second table has the same working directory. -/
def pwdInc (inodes : ι → Inode) : Option ι → ι → Inode
  | some pwd => Function.update inodes pwd { inodes pwd with refCount := (inodes pwd).refCount + 1 }
  | none => inodes

/-- `dup_files` into a new table. -/
theorem dupFiles_copies {source : τ} (stands : Stands k p .user) (shared : k.filesp p = some source) (free : k.files t = none) :
    ∃ after, dupFiles (filesCreate k t) t source = some after ∧ Stands after p .user ∧ Copied k after t (filesStructNentry + 1) := by
  obtain ⟨fromFiles, found, busy⟩ := stands.table shared
  have away : t ≠ source := by
    rintro rfl
    rw [free] at found
    cases found
  have alone (q : π) (_ : q ≠ p) : (k.frame q).destroys ≠ some t := by
    intro destroys
    obtain ⟨files, there, -⟩ := Sound.destroyed stands q (by rwa [Function.update_of_ne ‹q ≠ p›])
    rw [free] at there
    cases there
  have created : Stands (filesCreate k t) p .user := by
    have begun : Sound { k with frame := Function.update k.frame p .user } (Function.update k.frame p .user) :=
      ⟨stands.listed, stands.sharers, stands.there, fun q => (stands.sits q).congr rfl rfl, stands.alone, stands.opens, stands.refs⟩
    have made := Sound.created begun free
    exact ⟨made.listed, made.sharers, made.there, fun q => (made.sits q).congr rfl rfl, made.alone, made.opens, made.refs⟩
  have new : (filesCreate k t).files t = some ⟨none, fdArrayInit, 0⟩ := Function.update_self ..
  have stays : (filesCreate k t).files source = some fromFiles := (Function.update_of_ne away.symm ..).trans found
  let inodes := pwdInc k.inodes fromFiles.pwd
  let next : Kernel π τ ι := { (filesCreate k t).setFiles t (some ⟨fromFiles.pwd, fdArrayInit, 0⟩) with inodes := inodes }
  have next_stands : Stands next p .user := by
    have zero : (0 : Int) = total shares k.filesp t := created.sharers t _ new
    refine Sound.table created k.filesp inodes k.outside new rfl zero (fun _ _ => rfl)
      (fun _ _ shared => .inr shared) (fun _ _ => .inr rfl) (fun destroyed _ => ?_) (fun node => ?_) fun node => ?_
    · obtain ⟨q, destroys⟩ := destroyed
      by_cases here : q = p
      · subst here
        rw [Function.update_self] at destroys
        cases destroys
      · rw [Function.update_of_ne here] at destroys
        exact absurd destroys (alone q here)
    · cases pwd : fromFiles.pwd with
      | none => simp only [inodes, pwd]; rfl
      | some dir =>
        by_cases here : node = dir
        · subst here
          simp [inodes, pwdInc, pwd, filesCreate, Kernel.setFiles]
        · simp [inodes, pwdInc, pwd, filesCreate, Kernel.setFiles, here]
    · cases pwd : fromFiles.pwd with
      | none => simp only [inodes, pwd]; rfl
      | some dir =>
        by_cases here : node = dir
        · subst here
          simp [inodes, pwdInc, pwd, filesCreate, Kernel.setFiles, pwdHolds]
          omega
        · simp [inodes, pwdInc, pwd, filesCreate, Kernel.setFiles, here, Ne.symm here, pwdHolds]
  have next_file (fd : Fd) : next.file (t, fd) = some (fdArrayInit fd) := by simp [next, Kernel.file, Kernel.setFiles]
  obtain ⟨after, ran, stands', copied⟩ := dupLoop_copies next_stands source away
    (by simp [next, Kernel.setFiles, away.symm, stays]) ⟨_, Function.update_self .., rfl⟩ alone (List.finRange filesStructNentry)
    (List.nodup_finRange _) fun fd _ => ⟨_, next_file fd, rfl⟩
  refine ⟨after, ?_, stands', copied.frame, copied.filesp, copied.table, fun node => ?_⟩
  · have whole : dupFiles (filesCreate k t) t source = dupLoop t source next (List.finRange filesStructNentry) := by
      simp only [dupFiles, new, stays, Option.bind_eq_bind, Option.bind_some, guard, busy, and_self, if_true]
      cases pwd : fromFiles.pwd with
      | none => simp only [next, inodes, pwd]; rfl
      | some dir => simp only [next, inodes, pwd]; rfl
    exact whole.trans ran
  · have later := copied.refs node
    have grown : (next.inodes node).refCount ≤ (k.inodes node).refCount + 1 := by
      cases pwd : fromFiles.pwd with
      | none => simp [next, inodes, pwdInc, pwd]
      | some dir =>
        by_cases here : node = dir
        · subst here
          simp [next, inodes, pwdInc, pwd]
        · simp [next, inodes, pwdInc, pwd, here]
    rw [List.length_finRange] at later
    omega

/-! ## Steps -/

/-- No inode is near the most references that it may have. -/
def Spacious (k : Kernel π τ ι) : Prop := ∀ node, (k.inodes node).refCount + (filesStructNentry + 1) < maxInodeCount

instance [Fintype ι] (k : Kernel π τ ι) : Decidable (Spacious k) := inferInstanceAs (Decidable (∀ _, _ < _))

omit [DecidableEq π] [DecidableEq τ] [DecidableEq ι] [Fintype π] [Fintype τ] in
theorem Spacious.room (spacious : Spacious k) : Room k := fun node => by
  have small := spacious node
  omega

omit [DecidableEq τ] [DecidableEq ι] [Fintype π] [Fintype τ] in
theorem frame_user (idle : k.frame p = .user) : Function.update k.frame p .user = k.frame := by
  rw [← idle, Function.update_eq_self]

theorem share_settles {child : π} (sound : Sound k k.frame) (shared : k.filesp p = some t) (idle : k.frame p = .user) :
    Settles (serve k p t (.share child)) := by
  cases fresh : k.filesp child with
  | some _ => exact ⟨k, by simp [serve, fresh], sound⟩
  | none =>
    have stands := sound.stands idle
    obtain ⟨files, found, busy⟩ := stands.table shared
    cases place : k.frame child with
    | user =>
      refine ⟨_, ?_, sound.shared child found place fresh fun q destroys => ?_⟩
      · simp only [serve, fresh, place, filesCountInc, found, Option.bind_eq_bind, Option.bind_some]
        rfl
      · exact not_ends found busy (sound.destroyed q destroys)
    | _ => exact ⟨k, by simp [serve, fresh, place], sound⟩

theorem copy_settles {child : π} {new : τ} (sound : Sound k k.frame) (shared : k.filesp p = some t) (idle : k.frame p = .user) :
    Settles (serve k p t (.copy child new)) := by
  cases fresh : k.filesp child with
  | some _ => exact ⟨k, by simp [serve, fresh], sound⟩
  | none =>
    cases place : k.frame child with
    | user =>
      cases free : k.files new with
      | some _ => exact ⟨k, by simp [serve, fresh, place, free], sound⟩
      | none =>
        have stands := sound.stands idle
        obtain ⟨after, ran, stands', copied⟩ := dupFiles_copies stands shared free
        obtain ⟨table, found, zero⟩ := copied.table
        have sound' : Sound after after.frame := by
          rw [Stands, frame_user (by rw [copied.frame, idle])] at stands'
          exact stands'
        have apart (q : π) : (after.frame q).destroys ≠ some new := by
          intro destroys
          rw [copied.frame] at destroys
          obtain ⟨files, there, -⟩ := sound.destroyed q destroys
          rw [free] at there
          cases there
        have whole := sound'.shared child found (by rw [copied.frame, place]) (by rw [copied.filesp, fresh]) apart
        rw [copied.filesp] at whole
        refine ⟨_, ?_, whole⟩
        simp only [serve, fresh, place, free, copyFiles, shared, ran, filesCountInc, found, Option.bind_eq_bind, Option.bind_some]
        rfl
    | _ => exact ⟨k, by simp [serve, fresh, place], sound⟩

theorem copyFails_settles {new : τ} (sound : Sound k k.frame) (spacious : Spacious k) (shared : k.filesp p = some t)
    (idle : k.frame p = .user) : Settles (serve k p t (.copyFails new)) := by
  cases free : k.files new with
  | some _ => exact ⟨k, by simp [serve, free], sound⟩
  | none =>
    obtain ⟨after, ran, stands, copied⟩ := dupFiles_copies (sound.stands idle) shared free
    obtain ⟨table, found, zero⟩ := copied.table
    have room : Room after := fun node => (copied.refs node).trans_lt (spacious node)
    have settles := filesDestroy_settles stands room found zero fun q _ destroys => by
      rw [copied.frame] at destroys
      obtain ⟨files, there, -⟩ := sound.destroyed q destroys
      rw [free] at there
      cases there
    have same : (after.setFiles new (some { table with filesCount := table.filesCount + 1 })).setFiles new
        (some { table with filesCount := table.filesCount + 1 - 1 }) = after := by
      have back : table.filesCount + 1 - 1 = table.filesCount := by omega
      simp only [Kernel.setFiles, Function.update_idem, back]
      rw [← found, Function.update_eq_self]
    have whole : serve k p t (.copyFails new) = filesDestroy after p new := by
      simp only [serve, free, copyFiles, shared, ran, filesCountInc, found, Option.bind_eq_bind, Option.bind_some, putFiles,
        Option.pure_def]
      have again : (after.setFiles new (some { table with filesCount := table.filesCount + 1 })).files new =
          some { table with filesCount := table.filesCount + 1 } := Function.update_self ..
      rw [again]
      simp only [Option.bind_some, same]
      rw [if_pos (by omega)]
    rw [whole]
    exact settles

theorem serve_settles (sound : Sound k k.frame) (spacious : Spacious k) (shared : k.filesp p = some t) (idle : k.frame p = .user)
    (call : Call π τ ι) : Settles (serve k p t call) := by
  have stands := sound.stands idle
  have room := spacious.room
  cases call with
  | «open» flags => exact fileOpen_settles stands shared flags
  | close fd => exact fileClose_settles stands room shared fd
  | read fd => exact fileUse_settles stands room shared fd (fun file => file.readable) true fun _ => .ok .advance
  | write fd => exact fileUse_settles stands room shared fd (fun file => file.writable) true fun _ => .ok .advance
  | seek fd pos whence stat => exact fileUse_settles stands room shared fd _ _ _
  | look fd => exact fileUse_settles stands room shared fd (fun _ => true) true fun _ => .ok .keep
  | dup fd1 fd2 => exact fileDup_settles stands shared fd1 fd2
  | chdir dir isDir =>
    by_cases held : 0 < k.outside dir
    · rw [serve, if_pos held]
      exact vfsChdir_settles stands room shared held isDir
    · rw [serve, if_neg held]
      exact ⟨k, rfl, sound⟩
  | exec => exact filesCloseall_settles stands room shared
  | exit => exact putFiles_settles stands room shared
  | share child => exact share_settles sound shared idle
  | copy child new => exact copy_settles sound shared idle
  | copyFails new => exact copyFails_settles sound spacious shared idle

/-- The entry of a file that is given up is free again. -/
theorem Stands.emptied {rest : Rest} (stands : Stands k p (.drops ptr rest)) (found : k.file ptr = some file)
    (back : Frame τ ι) (free : back.Free) (destroys : back.destroys = (Frame.drops ptr rest : Frame τ ι).destroys)
    (sits : ∀ changed, Sits (k.setFile ptr changed) p back) (apart : ∀ q, q ≠ p → (k.frame q).destroys ≠ some ptr.1) :
    fdArrayFreed k ptr = some (k.setFile ptr { file with status := .fdNone }) ∧
      Stands (k.setFile ptr { file with status := .fdNone }) p back := by
  have mine : (Frame.drops ptr rest : Frame τ ι).frees ptr = 1 := by simp [Frame.frees]
  obtain ⟨users, owners, freers, -, fits⟩ := stands.listed_at found
  have closed : file.status = .fdClosed ∧ file.openCount = 0 := by
    cases status : file.status <;> simp only [File.Fits, status, mine] at fits
    · omega
    · omega
    · omega
    · by_cases nobody : users + (Frame.drops ptr rest : Frame τ ι).users ptr = 0
      · exact ⟨rfl, by omega⟩
      · rw [if_neg nobody] at fits
        omega
  obtain ⟨status, zero⟩ := closed
  have dead : ¬ file.Live := by simp [File.Live, status, zero]
  have dead' : ¬ ({ file with status := .fdNone } : File ι).Live := by simp [File.Live]
  refine ⟨by simp [fdArrayFreed, found], ?_⟩
  refine stands.changes found apart rfl (fun users owners freers fits => ?_) (fun other away => ?_) (.inl rfl) (sits _) destroys
    (fun node => ?_) (fun node => ?_)
  · have none_uses : (Frame.drops ptr rest : Frame τ ι).users ptr = 0 := rfl
    simp only [File.Fits, status, mine, none_uses, Nat.add_zero] at fits
    simp only [File.Fits, free.users, free.owns, free.frees]
    split_ifs at fits with nobody
    · refine ⟨by omega, by omega, ?_, by omega⟩
      have owners_zero := fits.2.1
      simp only [Frame.owns] at owners_zero
      omega
    · omega
  · rw [free.users, free.owns, free.frees]
    simp [Frame.users, Frame.owns, Frame.frees, Ne.symm away]
  · rw [fileHolds_dead dead, fileHolds_dead dead', free.opened]
    rfl
  · rw [fileHolds_dead dead, fileHolds_dead dead', free.refers]
    rfl

theorem drops_settles {rest : Rest} (stands : Stands k p (.drops ptr rest)) (room : Room k) :
    Settles (goOn k p (.drops ptr rest)) := by
  have sits := stands.sits p
  rw [Function.update_self] at sits
  cases rest with
  | done ret =>
    have shared : k.filesp p = some ptr.1 := sits
    obtain ⟨file, found⟩ := stands.entry ptr shared
    obtain ⟨freed, stands'⟩ := stands.emptied found .user free_user rfl (fun _ => trivial) (stands.apart (.inl shared))
    exact ⟨_, by simp [goOn, freed], stands'.leave ret⟩
  | closeall fds =>
    have shared : k.filesp p = some ptr.1 := sits
    obtain ⟨file, found⟩ := stands.entry ptr shared
    obtain ⟨freed, stands'⟩ := stands.emptied found .user free_user rfl (fun _ => trivial) (stands.apart (.inl shared))
    have whole : goOn k p (.drops ptr (.closeall fds)) = closeallLoop p ptr.1 (k.setFile ptr { file with status := .fdNone }) fds := by
      simp [goOn, freed]
    rw [whole]
    exact closeallLoop_settles stands' room shared fds
  | destroy fds =>
    obtain ⟨ends, emptied⟩ := sits
    obtain ⟨files, table, -⟩ := id ends
    have found : k.file ptr = some (files.fdArray ptr.2) := by simp [Kernel.file, table]
    obtain ⟨freed, stands'⟩ := stands.emptied found (.leaves ptr.1) (free_leaves _) rfl (fun _ => Ends.setFile ends)
      (stands.apart (.inr rfl))
    have whole : goOn k p (.drops ptr (.destroy fds)) =
        destroyLoop p ptr.1 (k.setFile ptr { files.fdArray ptr.2 with status := .fdNone }) fds := by
      simp [goOn, freed]
    rw [whole]
    refine destroyLoop_settles stands' room fds fun fd outside => ?_
    rw [file_setFile found]
    by_cases here : fd = ptr.2
    · rw [here]
      exact ⟨_, Function.update_self .., rfl⟩
    · rw [Function.update_of_ne fun same => here (congrArg Prod.snd same)]
      exact emptied fd (by simp [here, outside])

theorem goOn_settles (sound : Sound k k.frame) (room : Room k) : Settles (goOn k p (k.frame p)) := by
  cases place : k.frame p with
  | abandons ptr node ret =>
    have stands := sound.stands place
    have sits := stands.sits p
    rw [Function.update_self] at sits
    obtain ⟨after, dropped, stands'⟩ := stands.refDec (.forgets ptr ret) (fun _ => rfl) (fun _ => rfl)
      (fun _ => ⟨rfl, rfl, rfl⟩) sits rfl (fun _ => rfl) (fun _ => rfl)
    exact ⟨_, by simp [goOn, dropped], stands'.goTo⟩
  | forgets ptr ret => exact (sound.stands place).vfsFailed (forgets_owner ptr ret) ret
  | closes ptr node rest =>
    have stands := sound.stands place
    have sits := stands.sits p
    rw [Function.update_self] at sits
    have destroys : (Frame.drops ptr rest : Frame τ ι).destroys = (Frame.closes ptr node rest).destroys := by
      cases rest <;> rfl
    obtain ⟨after, dropped, stands'⟩ := stands.refDec (.drops ptr rest) (fun _ => rfl) (fun _ => rfl)
      (fun _ => ⟨rfl, rfl, rfl⟩) sits destroys (fun _ => rfl) (fun _ => rfl)
    exact ⟨_, by simp [goOn, dropped], stands'.goTo⟩
  | drops ptr rest => exact drops_settles (sound.stands place) room
  | leaves t => exact destroyLoop_settles (sound.stands place) room _ fun fd outside => absurd (List.mem_finRange fd) outside
  | _ => exact ⟨k, rfl, sound⟩

theorem step_settles (sound : Sound k k.frame) (spacious : Spacious k) (event : Event π τ ι) : Settles (step k event) := by
  have room := spacious.room
  cases event with
  | call p call =>
    simp only [step]
    split
    · exact serve_settles sound spacious ‹_› ‹_› call
    · exact ⟨k, rfl, sound⟩
  | found p node stat =>
    simp only [step]
    split
    · split
      · exact vfsFound_settles (sound.stands ‹_›) room ‹_› stat
      · exact ⟨k, rfl, sound⟩
    · exact ⟨k, rfl, sound⟩
  | failed p ret =>
    simp only [step]
    split
    · exact (sound.stands ‹_›).vfsFailed (opens_owner _ _) ret
    · exact ⟨k, rfl, sound⟩
  | truncated p ret stat =>
    simp only [step]
    split
    · exact vfsTruncated_settles (sound.stands ‹_›) room ret stat
    · exact ⟨k, rfl, sound⟩
  | used p ret copied =>
    simp only [step]
    split
    · exact fileUsed_settles (sound.stands ‹_›) room ret copied
    · exact ⟨k, rfl, sound⟩
  | finished p => exact goOn_settles sound room
  | take node => exact ⟨_, rfl, sound.taken node⟩
  | drop node =>
    simp only [step]
    split
    · obtain ⟨after, dropped, frame, sound'⟩ := sound.dropped ‹_›
      exact ⟨after, dropped, frame ▸ sound'⟩
    · exact ⟨k, rfl, sound⟩

theorem boot_sound (p : π) (t : τ) : Sound (boot p t : Kernel π τ ι) (boot p t : Kernel π τ ι).frame := by
  let nothing : Kernel π τ ι := ⟨fun _ => none, fun _ => none, fun _ => .user, fun _ => 0, fun _ => ⟨0, 0⟩, fun _ => 0⟩
  have nobody : Sound nothing nothing.frame := by
    refine ⟨fun ptr => ?_, fun _ _ here => by simp [nothing] at here, fun _ _ here => by simp [nothing] at here, fun _ => trivial,
      fun _ _ _ here => by simp [nothing, Frame.destroys] at here, fun node => ?_, fun node => ?_⟩
    · exact ⟨total_eq_zero.mpr fun _ => rfl, total_eq_zero.mpr fun _ => rfl, total_eq_zero.mpr fun _ => rfl⟩
    · simp [nothing, total, fileHolds, Kernel.file, Frame.opened]
    · simp [nothing, total, fileHolds, pwdHolds, Kernel.file, Frame.refers]
  have created := nobody.created (t := t) rfl
  have found : (filesCreate nothing t).files t = some ⟨none, fdArrayInit, 0⟩ := Function.update_self ..
  have shared := created.shared p found rfl rfl fun q => by simp [filesCreate, Kernel.setFiles, nothing, Frame.destroys]
  have whole : { (filesCreate nothing t).setFiles t (some ⟨none, fdArrayInit, 0 + 1⟩) with
      filesp := Function.update (filesCreate nothing t).filesp p (some t) } = boot p t := by
    simp [filesCreate, Kernel.setFiles, boot, nothing]
  exact whole ▸ shared

/-- What holds whenever no process is in the middle of a step. -/
structure InOrder (k : Kernel π τ ι) : Prop where
  /-- Every entry is as the calls at work on it have it. -/
  entries : ∀ t files fd, k.files t = some files → (files.fdArray fd).fd = fd ∧
    (files.fdArray fd).Fits (total Frame.users k.frame (t, fd)) (total Frame.owns k.frame (t, fd)) (total Frame.frees k.frame (t, fd))
  /-- A file that a process uses is there for it, and so is its inode. -/
  used : ∀ p ptr node use, k.frame p = .uses ptr node use → ∃ file, k.file ptr = some file ∧ file.Live ∧
    file.node = some node ∧ 0 < (k.inodes node).openCount ∧ 0 < (k.inodes node).refCount
  /-- No two calls are given the same entry, and none is given up twice. -/
  exclusive : ∀ p q ptr, 0 < (k.frame p).owns ptr ∧ 0 < (k.frame q).owns ptr ∨
    0 < (k.frame p).frees ptr ∧ 0 < (k.frame q).frees ptr → p = q
  tables : ∀ t files, k.files t = some files → files.filesCount = total shares k.filesp t
  opens : ∀ node, (k.inodes node).openCount = total fileHolds k.file node + total Frame.opened k.frame node
  refs : ∀ node, (k.inodes node).refCount = total fileHolds k.file node + total Frame.refers k.frame node +
    total pwdHolds k.files node + k.outside node

theorem Sound.inOrder (sound : Sound k k.frame) : InOrder k := by
  refine ⟨fun t files fd found => ?_, fun p ptr node use place => ?_, fun p q ptr both => ?_, sound.sharers, sound.opens, sound.refs⟩
  · have listed := sound.listed (t, fd)
    have entry : k.file (t, fd) = some (files.fdArray fd) := by simp [Kernel.file, found]
    rwa [entry] at listed
  · have stands := sound.stands place
    have sits := stands.sits p
    rw [Function.update_self] at sits
    obtain ⟨-, file, found, there⟩ := sits
    obtain ⟨users, owners, freers, -, fits⟩ := stands.listed_at found
    have busy : (Frame.uses ptr node use : Frame τ ι).users ptr = 1 := by simp [Frame.users]
    have live : file.Live := by
      cases status : file.status <;> simp only [File.Fits, status, busy] at fits
      · omega
      · omega
      · exact .inl status
      · exact .inr ⟨status, by omega⟩
    have positive := stands.open_pos found live there
    have below := sound.below node
    exact ⟨file, found, live, there, positive, by omega⟩
  · have listed := sound.listed ptr
    cases found : k.file ptr with
    | none =>
      rw [found] at listed
      have owns := total_eq_zero.mp listed.2.1 p
      have frees := total_eq_zero.mp listed.2.2 p
      omega
    | some file =>
      rw [found] at listed
      have fits := listed.2
      rcases both with ⟨mine, yours⟩ | ⟨mine, yours⟩
      · refine holder_unique ?_ mine yours
        have least : (k.frame p).owns ptr ≤ total Frame.owns k.frame ptr := le_total p
        cases status : file.status <;> simp only [File.Fits, status] at fits <;> omega
      · refine holder_unique ?_ mine yours
        have least : (k.frame p).frees ptr ≤ total Frame.frees k.frame ptr := le_total p
        cases status : file.status <;> simp only [File.Fits, status] at fits
        · omega
        · omega
        · omega
        · split_ifs at fits <;> omega

/-- Over every run of processes that open, use, share, copy, close and leave files, in every
order of their steps, no assertion fails and the tables stay in order. -/
theorem file_tables_in_order (p : π) (t : τ) (events : List (Event π τ ι))
    (spacious : Along step (fun k _ => Spacious k) (boot p t) events) :
    Safe step (fun _ _ after => InOrder after) (boot p t) events := by
  have preserved (k : Kernel π τ ι) (event : Event π τ ι) (sound : Sound k k.frame) (spacious : Spacious k) :
      ∃ after, step k event = some after ∧ InOrder after ∧ Sound after after.frame := by
    obtain ⟨after, ran, sound'⟩ := step_settles sound spacious event
    exact ⟨after, ran, sound'.inOrder, sound'⟩
  exact safe_of_invariant preserved (boot_sound p t) spacious

/-- A parent opens a file and shares its table; the child reads while the parent closes. -/
theorem file_tables_in_order_shared :
    Safe step (fun _ _ after => InOrder after) (boot 0 0 : Kernel (Fin 2) (Fin 2) (Fin 1))
      [.take 0, .call 0 (.open 0), .found 0 0 (.ok 0), .call 0 (.share 1), .call 1 (.read 0), .call 0 (.close 0),
        .used 1 5 5, .finished 1, .finished 1, .call 0 .exit, .call 1 .exit] :=
  file_tables_in_order 0 0 _ (by decide +kernel)

end Ucore.FileTable
