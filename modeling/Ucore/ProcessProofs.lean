import Ucore.Process
import Ucore.RefCount
import Ucore.Runs

/-! What processes hold is conserved: a count is the number of live processes
behind it, and what nobody holds any more is released. `do_exit` gives
`files_struct`s back only for processes that have an mm, so the runs in question
are those where no process without one exits. -/
namespace Ucore.Process
open RefCount Runs

variable {k after : Kernel} {base : Nat → Inode} {fileUsers mmUsers : Nat → Nat} {id : Nat}

/-! ## What is conserved -/

def liveFiles (proc : Proc) : Option Nat := if proc.zombie then none else proc.filesp
def liveMm (proc : Proc) : Option Nat := if proc.zombie then none else proc.mm

/-- The references a `files_struct` holds on an inode. -/
def FilesStruct.refs (files : FilesStruct) (node : Nat) : Nat :=
  (if files.pwd = some node then 1 else 0) + files.fdArray.count (some node)

def FilesStruct.opens (files : FilesStruct) (node : Nat) : Nat := files.fdArray.count (some node)

/-- A sum over all `files_struct`s. -/
def total (k : Kernel) (weight : FilesStruct → Nat) : Nat :=
  ∑ filesp ∈ Finset.range k.next, (k.files filesp).elim 0 weight

/-- The counts are right and nothing is kept that no process holds. The inodes
have the counts of `base` for what holds them besides. -/
structure Conserved (base : Nat → Inode) (k : Kernel) : Prop where
  files : Balanced FilesStruct.filesCount k.files (tally liveFiles k.procs)
  mms : Balanced MmStruct.mmCount k.mms (tally liveMm k.procs)
  kstacks : ∀ kstack, k.kstacks kstack = true → ∃ proc ∈ k.procs, proc.kstack = some kstack
  procStructs : ∀ addr, k.procStructs addr = true → ∃ proc ∈ k.procs, proc.addr = addr
  refs : ∀ node, (k.inodes node).refCount = (base node).refCount + total k (·.refs node)
  opens : ∀ node, (k.inodes node).openCount = (base node).openCount + total k (·.opens node)

/-! ## Inode counts -/

def shift (k : Kernel) (refs opens : Nat → Int) : Kernel :=
  { k with inodes := fun node =>
      ⟨(k.inodes node).refCount + refs node, (k.inodes node).openCount + opens node⟩ }

theorem shift_shift (refs opens refs' opens' : Nat → Int) :
    shift (shift k refs opens) refs' opens' = shift k (refs + refs') (opens + opens') := by
  simp only [shift, Pi.add_apply, add_assoc]

theorem shift_zero : shift k 0 0 = k := by
  simp only [shift, Pi.zero_apply, add_zero]

theorem setInode_shift (node : Nat) (refs opens : Int) :
    setInode k node ⟨(k.inodes node).refCount + refs, (k.inodes node).openCount + opens⟩ =
      shift k (Pi.single node refs) (Pi.single node opens) := by
  rw [setInode, shift]
  congr 1
  funext other
  by_cases same : other = node
  · subst same
    simp
  · simp [same]

theorem vopRefInc_shift (node : Nat) : vopRefInc k node = shift k (Pi.single node 1) 0 := by
  have shifted := setInode_shift (k := k) node 1 0
  rw [Pi.single_zero, add_zero] at shifted
  exact shifted

theorem vopOpenInc_shift (node : Nat) : vopOpenInc k node = shift k 0 (Pi.single node 1) := by
  have shifted := setInode_shift (k := k) node 0 1
  rw [Pi.single_zero, add_zero] at shifted
  exact shifted

theorem vopRefDec_shift (ran : vopRefDec k node = some after) :
    after = shift k (Pi.single node (-1)) 0 := by
  have shifted := setInode_shift (k := k) node (-1) 0
  rw [Pi.single_zero, add_zero] at shifted
  simp only [vopRefDec] at ran
  split at ran
  · split at ran
    · cases ran
    · exact (Option.some.inj ran).symm.trans shifted
  · cases ran

theorem vopOpenDec_shift (ran : vopOpenDec k node = some after) :
    after = shift k 0 (Pi.single node (-1)) := by
  have shifted := setInode_shift (k := k) node 0 (-1)
  rw [Pi.single_zero, add_zero] at shifted
  simp only [vopOpenDec] at ran
  split at ran
  · split at ran
    · cases ran
    · exact (Option.some.inj ran).symm.trans shifted
  · cases ran

theorem vfsClose_shift (ran : vfsClose k node = some after) :
    after = shift k (Pi.single node (-1)) (Pi.single node (-1)) := by
  obtain ⟨between, closed, dropped⟩ := Option.bind_eq_some_iff.mp ran
  rw [vopRefDec_shift dropped, vopOpenDec_shift closed, shift_shift, zero_add, add_zero]

/-- How often each inode is open in these entries. -/
def openIn (entries : List (Option Nat)) (node : Nat) : Int := entries.count (some node)

theorem openIn_none (rest : List (Option Nat)) : openIn (none :: rest) = openIn rest := by
  funext node
  simp [openIn]

theorem openIn_some (node : Nat) (rest : List (Option Nat)) :
    openIn (some node :: rest) = Pi.single node 1 + openIn rest := by
  funext other
  by_cases same : other = node
  · subst same
    simp [openIn, add_comm]
  · have apart : ¬ node = other := fun eq => same eq.symm
    simp [openIn, same, apart]

theorem closeEntries_shift (ran : closeEntries k entries = some after) :
    after = shift k (-openIn entries) (-openIn entries) := by
  induction entries generalizing k with
  | nil =>
    cases ran
    exact (shift_zero).symm
  | cons entry rest ih =>
    cases entry with
    | none =>
      rw [openIn_none]
      exact ih ran
    | some node =>
      obtain ⟨between, closed, others⟩ := Option.bind_eq_some_iff.mp ran
      have negative : Pi.single node (-1) + -openIn rest = -openIn (some node :: rest) := by
        rw [openIn_some, neg_add, ← Pi.single_neg]
      rw [ih others, vfsClose_shift closed, shift_shift, negative]

theorem dupEntries_shift (entries : List (Option Nat)) :
    dupEntries k entries = shift k (openIn entries) (openIn entries) := by
  induction entries generalizing k with
  | nil => exact (shift_zero).symm
  | cons entry rest ih =>
    cases entry with
    | none =>
      rw [openIn_none]
      exact ih
    | some node =>
      rw [dupEntries, ih, vopOpenInc_shift, vopRefInc_shift, shift_shift, shift_shift, openIn_some,
        zero_add, zero_add]

/-! ## Tables -/

/-- The tables agree with these numbers of users. -/
structure Tables (base : Nat → Inode) (fileUsers mmUsers : Nat → Nat) (k : Kernel) : Prop where
  files : Balanced FilesStruct.filesCount k.files fileUsers
  mms : Balanced MmStruct.mmCount k.mms mmUsers
  refs : ∀ node, (k.inodes node).refCount = (base node).refCount + total k (·.refs node)
  opens : ∀ node, (k.inodes node).openCount = (base node).openCount + total k (·.opens node)
  fresh : ∀ id, k.next ≤ id → k.files id = none ∧ k.mms id = none
  entries : ∀ id files, k.files id = some files → files.fdArray.length = filesStructNentry

/-- What the calls on the tables leave alone. -/
structure Apart (k after : Kernel) : Prop where
  procs : after.procs = k.procs
  initproc : after.initproc = k.initproc
  kstacks : after.kstacks = k.kstacks
  procStructs : after.procStructs = k.procStructs
  next : k.next ≤ after.next

theorem Apart.rfl : Apart k k := ⟨.refl _, .refl _, .refl _, .refl _, Nat.le_refl _⟩

theorem Apart.trans (first : Apart k between) (second : Apart between after) : Apart k after :=
  ⟨second.procs.trans first.procs, second.initproc.trans first.initproc,
    second.kstacks.trans first.kstacks, second.procStructs.trans first.procStructs,
    Nat.le_trans first.next second.next⟩

theorem Tables.known {files : FilesStruct} (tables : Tables base fileUsers mmUsers k)
    (found : k.files id = some files) :
    id < k.next := by
  by_contra beyond
  have absent := (tables.fresh id (by omega)).1
  rw [found] at absent
  cases absent

theorem total_setFiles (inside : id < k.next) (entry : Option FilesStruct)
    (weight : FilesStruct → Nat) :
    total (setFiles k id entry) weight + (k.files id).elim 0 weight =
      total k weight + entry.elim 0 weight := by
  have member := Finset.mem_range.mpr inside
  have others : ∑ other ∈ (Finset.range k.next).erase id,
        (Function.update k.files id entry other).elim 0 weight =
      ∑ other ∈ (Finset.range k.next).erase id, (k.files other).elim 0 weight := by
    refine Finset.sum_congr rfl fun other at_other => ?_
    rw [Function.update_of_ne (Finset.ne_of_mem_erase at_other)]
  simp only [total, setFiles]
  rw [← Finset.add_sum_erase _ _ member, ← Finset.add_sum_erase _ _ member, others,
    Function.update_self]
  omega

/-- A name that nothing has is left for the next allocation. -/
theorem Tables.grow (tables : Tables base fileUsers mmUsers k) :
    Tables base fileUsers mmUsers { k with next := k.next + 1 } := by
  have same (weight : FilesStruct → Nat) : total { k with next := k.next + 1 } weight = total k weight := by
    simp only [total]
    rw [Finset.sum_range_succ, (tables.fresh k.next (Nat.le_refl _)).1]
    rfl
  refine { tables with refs := ?_, opens := ?_, fresh := ?_ }
  · intro node
    rw [same]
    exact tables.refs node
  · intro node
    rw [same]
    exact tables.opens node
  · intro id beyond
    exact tables.fresh id (Nat.le_of_succ_le beyond)

/-- One `files_struct` changes, and the inode counts with it. -/
theorem Tables.rewire (tables : Tables base fileUsers mmUsers k) (inside : id < k.next)
    (entry : Option FilesStruct) (refs opens : Nat → Int)
    (balanced : Balanced FilesStruct.filesCount (Function.update k.files id entry) users)
    (length : ∀ files, entry = some files → files.fdArray.length = filesStructNentry)
    (more_refs : ∀ node, refs node =
      (entry.elim 0 (·.refs node) : Nat) - ((k.files id).elim 0 (·.refs node) : Nat))
    (more_opens : ∀ node, opens node =
      (entry.elim 0 (·.opens node) : Nat) - ((k.files id).elim 0 (·.opens node) : Nat)) :
    Tables base users mmUsers (shift (setFiles k id entry) refs opens) where
  files := balanced
  mms := tables.mms
  refs node := by
    have changed := total_setFiles inside entry (·.refs node)
    have before := tables.refs node
    have here := more_refs node
    simp only [shift]
    change (k.inodes node).refCount + refs node = _ + (total (setFiles k id entry) _ : Int)
    omega
  opens node := by
    have changed := total_setFiles inside entry (·.opens node)
    have before := tables.opens node
    have here := more_opens node
    simp only [shift]
    change (k.inodes node).openCount + opens node = _ + (total (setFiles k id entry) _ : Int)
    omega
  fresh other beyond := by
    have apart : other ≠ id := fun same => by subst same; exact absurd inside (Nat.not_lt.mpr beyond)
    refine ⟨?_, (tables.fresh other beyond).2⟩
    exact (Function.update_of_ne apart _ _).trans (tables.fresh other beyond).1
  entries other files found := by
    by_cases same : other = id
    · subst same
      have here : Function.update k.files other entry other = some files := found
      rw [Function.update_self] at here
      exact length files here
    · have elsewhere : Function.update k.files id entry other = some files := found
      rw [Function.update_of_ne same] at elsewhere
      exact tables.entries other files elsewhere

theorem shift_apart (refs opens : Nat → Int) : Apart k (shift (setFiles k id entry) refs opens) :=
  ⟨rfl, rfl, rfl, rfl, Nat.le_refl _⟩

/-- The reference to the working directory. -/
def pwdRefs : Option Nat → Nat → Int
  | none => 0
  | some pwd => Pi.single pwd 1

theorem refs_cast (files : FilesStruct) (node : Nat) :
    (files.refs node : Int) = pwdRefs files.pwd node + openIn files.fdArray node := by
  cases pwd : files.pwd with
  | none => simp [FilesStruct.refs, pwd, pwdRefs, openIn]
  | some dir =>
    by_cases same : node = dir
    · subst same
      simp [FilesStruct.refs, pwd, pwdRefs, openIn]
    · have apart : ¬ dir = node := fun eq => same eq.symm
      simp [FilesStruct.refs, pwd, pwdRefs, openIn, same, apart]

theorem opens_cast (files : FilesStruct) (node : Nat) :
    (files.opens node : Int) = openIn files.fdArray node := rfl

theorem single_if (node other : Nat) (n : Int) :
    (Pi.single node n : Nat → Int) other = if some node = some other then n else 0 := by
  rw [Pi.single_apply]
  refine if_congr ?_ rfl rfl
  rw [Option.some.injEq, eq_comm]

theorem none_if (node : Nat) (n : Int) : (if (none : Option Nat) = some node then n else 0) = 0 :=
  if_neg (by simp)

theorem putPwd_shift {pwd : Option Nat} (ran : putPwd k pwd = some after) :
    after = shift k (-pwdRefs pwd) 0 := by
  cases pwd with
  | none =>
    cases ran
    exact (shift_zero).symm
  | some dir =>
    rw [vopRefDec_shift ran, pwdRefs, ← Pi.single_neg]

/-- `files_destroy` releases the working directory and closes every file. -/
theorem filesDestroy_shift (ran : filesDestroy k id = some after) :
    ∃ files, k.files id = some files ∧ after =
      shift (setFiles k id none) (-pwdRefs files.pwd + -openIn files.fdArray) (-openIn files.fdArray) := by
  obtain ⟨files, found, rest⟩ := Option.bind_eq_some_iff.mp ran
  refine ⟨files, found, ?_⟩
  split at rest
  · obtain ⟨left, dropped, rest⟩ := Option.bind_eq_some_iff.mp rest
    obtain ⟨closed, entries, rest⟩ := Option.bind_eq_some_iff.mp rest
    cases rest
    rw [closeEntries_shift entries, putPwd_shift dropped, shift_shift, zero_add]
    rfl
  · cases rest

/-- A reference in hand to a `files_struct` is given back. -/
theorem Tables.putFiles
    (tables : Tables base (Function.update fileUsers id (fileUsers id + 1)) mmUsers k)
    (ran : Process.putFiles k id = some after) :
    Tables base fileUsers mmUsers after ∧ Apart k after := by
  obtain ⟨files, found, rest⟩ := Option.bind_eq_some_iff.mp ran
  have inside := tables.known found
  split at rest
  · rename_i last
    obtain ⟨emptied, there, rfl⟩ := filesDestroy_shift rest
    have same : some emptied = some { files with filesCount := files.filesCount - 1 } :=
      there.symm.trans (Function.update_self ..)
    cases same
    have idem : setFiles (setFiles k id (some { files with filesCount := files.filesCount - 1 })) id
        none = setFiles k id none := by
      rw [setFiles, setFiles, setFiles]
      simp only [Function.update_idem]
    rw [idem]
    refine ⟨tables.rewire inside none _ _ (tables.files.destroy found last) (by simp) ?_ ?_,
      shift_apart _ _⟩
    · intro node
      rw [found]
      have cast := refs_cast files node
      simp only [Option.elim_none, Option.elim_some, Pi.add_apply, Pi.neg_apply]
      omega
    · intro node
      rw [found]
      simp [FilesStruct.opens, openIn]
  · rename_i others
    cases rest
    rw [← shift_zero (k := setFiles k id _)]
    refine ⟨tables.rewire inside _ _ _ (tables.files.leave found rfl others) ?_ ?_ ?_,
      shift_apart _ _⟩
    · rintro _ ⟨⟩
      exact tables.entries id files found
    · intro node
      rw [found]
      simp [FilesStruct.refs]
    · intro node
      rw [found]
      simp [FilesStruct.opens]

/-- The process's files from 2 on are closed. -/
theorem Tables.filesCloseall (tables : Tables base fileUsers mmUsers k)
    (ran : Process.filesCloseall k id = some after) :
    Tables base fileUsers mmUsers after ∧ Apart k after ∧
      ∃ files, after.files id = some files ∧ files.fdArray.findIdx? Option.isNone ≠ none := by
  obtain ⟨files, found, rest⟩ := Option.bind_eq_some_iff.mp ran
  have inside := tables.known found
  have length := tables.entries id files found
  split at rest
  · obtain ⟨closed, entries, rest⟩ := Option.bind_eq_some_iff.mp rest
    cases rest
    rw [closeEntries_shift entries]
    have halves (node : Nat) : openIn files.fdArray node =
        openIn (files.fdArray.take 2) node + openIn (files.fdArray.drop 2) node := by
      simp only [openIn]
      rw [← Int.natCast_add, ← List.count_append, List.take_append_drop]
    have emptied (node : Nat) : ((files.fdArray.drop 2).map fun _ => (none : Option Nat)).count
        (some node) = 0 := by
      simp [List.count_eq_zero]
    refine ⟨tables.rewire inside _ _ _ (tables.files.modify found rfl) ?_ ?_ ?_,
      shift_apart _ _, _, Function.update_self .., ?_⟩
    · rintro _ ⟨⟩
      rw [List.length_append, List.length_map, ← List.length_append, List.take_append_drop]
      exact length
    · intro node
      rw [found]
      have both := halves node
      simp only [openIn] at both
      simp only [Option.elim_some, FilesStruct.refs, List.count_append, emptied, Pi.neg_apply, openIn]
      omega
    · intro node
      rw [found]
      have both := halves node
      simp only [openIn] at both
      simp only [Option.elim_some, FilesStruct.opens, List.count_append, emptied, Pi.neg_apply, openIn]
      omega
    · rw [Ne, List.findIdx?_eq_none_iff]
      intro full
      have some_entry : (none : Option Nat) ∈ (files.fdArray.drop 2).map fun _ => none := by
        simp [length, filesStructNentry]
      exact absurd (full none (List.mem_append_right _ some_entry)) (by simp)
  · cases rest

theorem openIn_split (front : List (Option Nat)) (entry : Option Nat) (back : List (Option Nat))
    (node : Nat) : openIn (front ++ entry :: back) node =
      openIn (front ++ back) node + (if entry = some node then 1 else 0) := by
  by_cases same : entry = some node
  · simp [openIn, List.count_append, same, add_assoc]
  · simp [openIn, List.count_append, List.count_cons_of_ne, same]

/-- Setting an entry trades its old inode for the new one. -/
theorem openIn_set {entries : List (Option Nat)} (at_fd : entries[fd]? = some old)
    (entry : Option Nat) (node : Nat) : openIn (entries.set fd entry) node =
      openIn entries node - (if old = some node then 1 else 0) + (if entry = some node then 1 else 0) := by
  obtain ⟨inside, at_fd⟩ := List.getElem?_eq_some_iff.mp at_fd
  have before : entries = entries.take fd ++ old :: entries.drop (fd + 1) := by
    rw [← at_fd, List.getElem_cons_drop, List.take_append_drop]
  have split_old := openIn_split (entries.take fd) old (entries.drop (fd + 1)) node
  rw [← before] at split_old
  rw [List.set_eq_take_append_cons_drop, if_pos inside, openIn_split, split_old]
  omega

theorem Tables.fileOpen (tables : Tables base fileUsers mmUsers k)
    (ran : Process.fileOpen k id file = some (after, result)) :
    Tables base fileUsers mmUsers after ∧ Apart k after := by
  obtain ⟨files, found, rest⟩ := Option.bind_eq_some_iff.mp ran
  have inside := tables.known found
  split at rest
  · split at rest
    · cases rest
      exact ⟨tables, .rfl⟩
    · cases rest
      exact ⟨tables, .rfl⟩
    · rename_i fd node at_fd
      cases rest
      obtain ⟨bound, free, _⟩ := List.findIdx?_eq_some_iff_getElem.mp at_fd
      have empty : files.fdArray[fd]? = some none := by
        rw [List.getElem?_eq_getElem bound, Option.isNone_iff_eq_none.mp free]
      rw [vopOpenInc_shift, vopRefInc_shift, shift_shift, zero_add, add_zero]
      refine ⟨tables.rewire inside _ _ _ (tables.files.modify found rfl) ?_ ?_ ?_, shift_apart _ _⟩
      · rintro _ ⟨⟩
        rw [List.length_set]
        exact tables.entries id files found
      · intro other
        rw [found, Option.elim_some, Option.elim_some, refs_cast, refs_cast, openIn_set empty,
          single_if, none_if]
        dsimp only
        omega
      · intro other
        rw [found, Option.elim_some, Option.elim_some, opens_cast, opens_cast, openIn_set empty,
          single_if, none_if]
        omega
  · cases rest

/-- After `files_closeall` only `vfs_open` itself can fail. -/
theorem fileOpen_file (ran : fileOpen k id file = some (after, result))
    (found : k.files id = some files) (room : files.fdArray.findIdx? Option.isNone ≠ none) :
    (∃ ret, result = .error ret ∧ file = .error ret) ∨ ∃ fd node, result = .ok fd ∧ file = .ok node := by
  obtain ⟨same, found', rest⟩ := Option.bind_eq_some_iff.mp ran
  rw [found, Option.some.injEq] at found'
  subst found'
  split at rest
  · split at rest
    · rename_i full
      exact absurd full room
    · cases rest
      exact .inl ⟨_, rfl, rfl⟩
    · cases rest
      exact .inr ⟨_, _, rfl, rfl⟩
  · cases rest

theorem Tables.fileClose (tables : Tables base fileUsers mmUsers k)
    (ran : Process.fileClose k id fd = some after) :
    Tables base fileUsers mmUsers after ∧ Apart k after := by
  obtain ⟨files, found, rest⟩ := Option.bind_eq_some_iff.mp ran
  have inside := tables.known found
  split at rest
  · rename_i node at_fd
    obtain ⟨closed, shut, rest⟩ := Option.bind_eq_some_iff.mp rest
    cases rest
    rw [vfsClose_shift shut]
    refine ⟨tables.rewire inside _ _ _ (tables.files.modify found rfl) ?_ ?_ ?_, shift_apart _ _⟩
    · rintro _ ⟨⟩
      rw [List.length_set]
      exact tables.entries id files found
    · intro other
      rw [found, Option.elim_some, Option.elim_some, refs_cast, refs_cast, openIn_set at_fd,
        single_if, none_if]
      dsimp only
      split <;> omega
    · intro other
      rw [found, Option.elim_some, Option.elim_some, opens_cast, opens_cast, openIn_set at_fd,
        single_if, none_if]
      split <;> omega
  · cases rest
    exact ⟨tables, .rfl⟩

theorem getPwd_shift (pwd : Option Nat) : getPwd k pwd = shift k (pwdRefs pwd) 0 := by
  cases pwd with
  | none => exact (shift_zero).symm
  | some dir => exact vopRefInc_shift dir

theorem Tables.vfsChdir (tables : Tables base fileUsers mmUsers k)
    (ran : Process.vfsChdir k id dir = some after) :
    Tables base fileUsers mmUsers after ∧ Apart k after := by
  obtain ⟨files, found, rest⟩ := Option.bind_eq_some_iff.mp ran
  have inside := tables.known found
  split at rest
  · rw [vopRefDec_shift rest, vopRefInc_shift, shift_shift, add_zero, ← Pi.single_add,
      add_neg_cancel, Pi.single_zero, shift_zero]
    exact ⟨tables, .rfl⟩
  · obtain ⟨left, dropped, rest⟩ := Option.bind_eq_some_iff.mp rest
    have moved : setFiles (shift (shift k (Pi.single dir 1) 0) (Pi.single dir 1) 0) id
          (some { files with pwd := some dir }) =
        shift (shift (setFiles k id (some { files with pwd := some dir })) (Pi.single dir 1) 0)
          (Pi.single dir 1) 0 := rfl
    rw [vopRefDec_shift rest, putPwd_shift dropped, vopRefInc_shift, vopRefInc_shift, moved,
      shift_shift, shift_shift, shift_shift]
    refine ⟨tables.rewire inside _ _ _ (tables.files.modify found rfl) ?_ ?_ ?_, shift_apart _ _⟩
    · rintro _ ⟨⟩
      exact tables.entries id files found
    · intro node
      rw [found, Option.elim_some, Option.elim_some, refs_cast, refs_cast]
      simp only [Pi.add_apply, Pi.neg_apply, pwdRefs, single_if]
      split <;> omega
    · intro node
      rw [found]
      simp [FilesStruct.opens]

/-! ## What a child gets -/

theorem dupFiles_shift (ran : dupFiles k filesTo filesFrom = some after) :
    ∃ toFiles files, k.files filesTo = some toFiles ∧ k.files filesFrom = some files ∧
      toFiles.filesCount = 0 ∧ 0 < files.filesCount ∧ after =
        shift (setFiles k filesTo (some { toFiles with pwd := files.pwd, fdArray := files.fdArray }))
          (pwdRefs files.pwd + openIn files.fdArray) (openIn files.fdArray) := by
  obtain ⟨toFiles, there, rest⟩ := Option.bind_eq_some_iff.mp ran
  obtain ⟨files, found, rest⟩ := Option.bind_eq_some_iff.mp rest
  split at rest
  · rename_i counts
    cases rest
    simp only [Bool.and_eq_true, decide_eq_true_eq] at counts
    refine ⟨toFiles, files, there, found, counts.1, counts.2, ?_⟩
    rw [dupEntries_shift, getPwd_shift, shift_shift, zero_add]
    rfl
  · cases rest

/-- A new `files_struct` with the entries of an old one and its first reference. -/
theorem filesCreate_dup
    (dup : dupFiles (filesCreate k).1 (filesCreate k).2 old = some copied)
    (more : filesCountInc copied (filesCreate k).2 = some after) :
    ∃ files, k.files old = some files ∧ after =
      shift (setFiles { k with next := k.next + 1 } k.next (some ⟨1, files.pwd, files.fdArray⟩))
        (pwdRefs files.pwd + openIn files.fdArray) (openIn files.fdArray) := by
  obtain ⟨toFiles, files, there, found, zero, used, rfl⟩ := dupFiles_shift dup
  obtain ⟨counted, at_next, rfl⟩ := Option.map_eq_some_iff.mp more
  have here : some counted = some { toFiles with pwd := files.pwd, fdArray := files.fdArray } :=
    at_next.symm.trans (Function.update_self ..)
  cases here
  refine ⟨files, ?_, ?_⟩
  · have elsewhere : Function.update k.files k.next (some _) old = some files := found
    by_cases same : old = k.next
    · rw [same, Function.update_self, Option.some.injEq] at elsewhere
      subst elsewhere
      exact absurd used (Int.lt_irrefl 0)
    · rwa [Function.update_of_ne same] at elsewhere
  · simp only [filesCreate, setFiles, shift, Function.update_idem, zero]
    rfl

/-- The child shares the parent's `files_struct` or gets a copy of it. -/
theorem Tables.copyFiles (tables : Tables base fileUsers mmUsers k)
    (ran : Process.copyFiles k current flags memory = some (after, result)) :
    Apart k after ∧ (result = none → after = k) ∧ ∀ filesp, result = some filesp →
      Tables base (Function.update fileUsers filesp (fileUsers filesp + 1)) mmUsers after := by
  obtain ⟨old, mine, rest⟩ := Option.bind_eq_some_iff.mp ran
  split at rest
  · obtain ⟨counted, more, rest⟩ := Option.bind_eq_some_iff.mp rest
    cases rest
    obtain ⟨files, found, rfl⟩ := Option.map_eq_some_iff.mp more
    refine ⟨⟨rfl, rfl, rfl, rfl, Nat.le_refl _⟩, by simp, ?_⟩
    rintro _ ⟨⟩
    rw [← shift_zero (k := setFiles k old _)]
    refine tables.rewire (tables.known found) _ _ _ (tables.files.share found rfl) ?_ ?_ ?_
    · rintro _ ⟨⟩
      exact tables.entries old files found
    · intro node
      rw [found]
      simp [FilesStruct.refs]
    · intro node
      rw [found]
      simp [FilesStruct.opens]
  · split at rest
    · obtain ⟨copied, dup, rest⟩ := Option.bind_eq_some_iff.mp rest
      obtain ⟨counted, more, rest⟩ := Option.bind_eq_some_iff.mp rest
      cases rest
      obtain ⟨files, found, rfl⟩ := filesCreate_dup dup more
      refine ⟨⟨rfl, rfl, rfl, rfl, Nat.le_succ _⟩, by simp, ?_⟩
      rintro _ ⟨⟩
      have absent := (tables.fresh k.next (Nat.le_refl _)).1
      refine tables.grow.rewire (Nat.lt_succ_self _) _ _ _ (tables.files.create absent rfl) ?_ ?_ ?_
      · rintro _ ⟨⟩
        exact tables.entries old files found
      · intro node
        dsimp only
        rw [absent, Option.elim_some, Option.elim_none, refs_cast]
        simp
      · intro node
        dsimp only
        rw [absent, Option.elim_some, Option.elim_none, opens_cast]
        simp
    · cases rest
      exact ⟨.rfl, by simp, by simp⟩

theorem setMm_apart (mm : Nat) (entry : Option MmStruct) : Apart k (setMm k mm entry) :=
  ⟨rfl, rfl, rfl, rfl, Nat.le_refl _⟩

theorem Tables.setMm (tables : Tables base fileUsers mmUsers k) (inside : id < k.next)
    (balanced : Balanced MmStruct.mmCount (Function.update k.mms id entry) users) :
    Tables base fileUsers users (Process.setMm k id entry) := by
  refine { tables with mms := balanced, fresh := fun other beyond => ?_ }
  have apart : other ≠ id := fun same => by subst same; exact absurd inside (Nat.not_lt.mpr beyond)
  refine ⟨(tables.fresh other beyond).1, ?_⟩
  exact (Function.update_of_ne apart _ _).trans (tables.fresh other beyond).2

theorem Tables.known_mm (tables : Tables base fileUsers mmUsers k) (found : k.mms id = some mm) :
    id < k.next := by
  by_contra beyond
  have absent := (tables.fresh id (by omega)).2
  rw [found] at absent
  cases absent

/-- A reference in hand to an mm is given back. -/
theorem Tables.dropMm
    (tables : Tables base fileUsers (Function.update mmUsers id (mmUsers id + 1)) k)
    (ran : Process.dropMm k id = some after) :
    Tables base fileUsers mmUsers after ∧ Apart k after := by
  obtain ⟨old, found, rfl⟩ := Option.map_eq_some_iff.mp ran
  refine ⟨tables.setMm (tables.known_mm found) ?_, setMm_apart _ _⟩
  split
  · rename_i last
    exact tables.mms.destroy found last
  · rename_i others
    exact tables.mms.leave found rfl others

theorem Tables.mmCreate (tables : Tables base fileUsers mmUsers k) :
    Tables base fileUsers (Function.update mmUsers k.next (mmUsers k.next + 1))
      (Process.mmCreate k).1 ∧ Apart k (Process.mmCreate k).1 := by
  refine ⟨?_, ⟨rfl, rfl, rfl, rfl, Nat.le_succ _⟩⟩
  have absent := (tables.fresh k.next (Nat.le_refl _)).2
  exact tables.grow.setMm (Nat.lt_succ_self _) (tables.mms.create absent rfl)

theorem Tables.releaseMm {mm : Option Nat} (tables : Tables base fileUsers (withUser mmUsers mm) k)
    (ran : Process.releaseMm k mm = some after) :
    Tables base fileUsers mmUsers after ∧ Apart k after := by
  cases mm with
  | none =>
    cases ran
    exact ⟨tables, .rfl⟩
  | some mm => exact tables.dropMm ran

/-- The child of a user process shares its mm or gets one of its own. -/
theorem Tables.copyMm (tables : Tables base fileUsers mmUsers k)
    (ran : Process.copyMm k current flags memory = some (after, result)) :
    Apart k after ∧ (result = none → after = k) ∧ ∀ mm, result = some mm →
      Tables base fileUsers (withUser mmUsers mm) after := by
  unfold Process.copyMm at ran
  split at ran
  · cases ran
    refine ⟨.rfl, by simp, ?_⟩
    rintro _ ⟨⟩
    exact tables
  · split at ran
    · obtain ⟨old, found, rest⟩ := Option.map_eq_some_iff.mp ran
      cases rest
      refine ⟨setMm_apart _ _, by simp, ?_⟩
      rintro _ ⟨⟩
      exact tables.setMm (tables.known_mm found) (tables.mms.share found rfl)
    · split at ran
      · cases ran
        refine ⟨tables.mmCreate.2, by simp, ?_⟩
        rintro _ ⟨⟩
        exact tables.mmCreate.1
      · cases ran
        exact ⟨.rfl, by simp, by simp⟩

/-! ## Processes -/

/-- The inductive invariant. -/
structure Inv (base : Nat → Inode) (k : Kernel) : Prop where
  tables : Tables base (tally liveFiles k.procs) (tally liveMm k.procs) k
  kstacks : ∀ kstack, k.kstacks kstack = true → ∃ proc ∈ k.procs, proc.kstack = some kstack
  procStructs : ∀ addr, k.procStructs addr = true → ∃ proc ∈ k.procs, proc.addr = addr
  distinct : (k.procs.map Proc.addr).Nodup
  known : ∀ proc ∈ k.procs, proc.addr < k.next

theorem Inv.conserved (inv : Inv base k) : Conserved base k :=
  ⟨inv.tables.files, inv.tables.mms, inv.kstacks, inv.procStructs, inv.tables.refs, inv.tables.opens⟩

/-- Tables depend on the tables only. -/
theorem Tables.congr (tables : Tables base fileUsers mmUsers k) (files : after.files = k.files)
    (mms : after.mms = k.mms) (inodes : after.inodes = k.inodes) (next : after.next = k.next) :
    Tables base fileUsers mmUsers after := by
  have same (weight : FilesStruct → Nat) : total after weight = total k weight := by
    rw [total, total, files, next]
  refine ⟨files ▸ tables.files, mms ▸ tables.mms, fun node => ?_, fun node => ?_, ?_, ?_⟩
  · rw [inodes, same]
    exact tables.refs node
  · rw [inodes, same]
    exact tables.opens node
  · rw [files, mms, next]
    exact tables.fresh
  · rw [files]
    exact tables.entries

/-- A call on the tables alone. -/
theorem Inv.of_tables (inv : Inv base k) (apart : Apart k after)
    (tables : Tables base (tally liveFiles k.procs) (tally liveMm k.procs) after) :
    Inv base after := by
  have next := apart.next
  refine ⟨?_, ?_, ?_, ?_, ?_⟩
  · rw [apart.procs]
    exact tables
  · rw [apart.procs, apart.kstacks]
    exact inv.kstacks
  · rw [apart.procs, apart.procStructs]
    exact inv.procStructs
  · rw [apart.procs]
    exact inv.distinct
  · rw [apart.procs]
    intro proc member
    have known := inv.known proc member
    omega

/-- One process and the others. -/
theorem Inv.others (inv : Inv base k) (member : current ∈ k.procs) :
    ∃ rest, k.procs.Perm (current :: rest) ∧ ∀ proc ∈ rest, proc.addr ≠ current.addr := by
  obtain ⟨front, back, split⟩ := List.append_of_mem member
  have perm : k.procs.Perm (current :: (front ++ back)) := split ▸ List.perm_middle
  refine ⟨front ++ back, perm, fun proc among same => ?_⟩
  have distinct := (perm.map Proc.addr).nodup_iff.mp inv.distinct
  rw [List.map_cons, List.nodup_cons] at distinct
  exact distinct.1 (List.mem_map.mpr ⟨proc, among, same⟩)

theorem setProc_perm (perm : k.procs.Perm (current :: rest))
    (apart : ∀ proc ∈ rest, proc.addr ≠ current.addr) (proc : Proc) (same : proc.addr = current.addr) :
    (setProc k proc).procs.Perm (proc :: rest) := by
  have mapped := perm.map fun other => if other.addr = proc.addr then proc else other
  refine mapped.trans (.of_eq ?_)
  rw [List.map_cons, if_pos same.symm]
  congr 1
  conv_rhs => rw [← List.map_id rest]
  refine List.map_congr_left fun other member => ?_
  rw [if_neg (same ▸ apart other member)]
  rfl

/-- A child of `current` goes to `initproc`. -/
def adopted (initproc : Option Nat) (current : Nat) (proc : Proc) : Proc :=
  if proc.parent = some current then { proc with parent := initproc } else proc

/-- Re-parenting reorders the processes and changes nothing but parents. -/
theorem reparent_perm (k : Kernel) (current : Nat) :
    (reparent k current).procs.Perm (k.procs.map (adopted k.initproc current)) := by
  have split := (List.filter_append_perm (fun proc : Proc => proc.parent = some current) k.procs).map
    (adopted k.initproc current)
  refine List.Perm.trans ?_ split
  rw [List.map_append]
  refine List.Perm.append ?_ (.of_eq ?_)
  · refine ((List.reverse_perm _).map _).trans (.of_eq ?_)
    refine List.map_congr_left fun proc member => ?_
    rw [adopted, if_pos (of_decide_eq_true (List.mem_filter.mp member).2)]
  · conv_lhs => rw [← List.map_id (List.filter _ _)]
    refine List.map_congr_left fun proc member => ?_
    have other := (List.mem_filter.mp member).2
    simp only [Bool.not_eq_true', decide_eq_false_iff_not] at other
    rw [adopted, if_neg other]
    rfl

/-- One process changes what it holds; parents may change everywhere. -/
theorem Inv.of_changed (inv : Inv base k) (perm : k.procs.Perm (current :: rest))
    (change : Proc → Proc) (keeps : ∀ proc, (change proc).addr = proc.addr ∧
      (change proc).kstack = proc.kstack ∧ liveFiles (change proc) = liveFiles proc ∧
      liveMm (change proc) = liveMm proc)
    (proc : Proc) (same : proc.addr = current.addr ∧ proc.kstack = current.kstack)
    (perm' : after.procs.Perm ((proc :: rest).map change))
    (tables : Tables base (withUser (tally liveFiles rest) (liveFiles proc))
      (withUser (tally liveMm rest) (liveMm proc)) after)
    (kstacks : after.kstacks = k.kstacks) (procStructs : after.procStructs = k.procStructs)
    (next : k.next ≤ after.next) : Inv base after := by
  have transfer {α : Type} (read : Proc → α) (kept : ∀ proc, read (change proc) = read proc)
      (mine : read proc = read current) (value : α) (held : ∃ proc ∈ k.procs, read proc = value) :
      ∃ proc ∈ after.procs, read proc = value := by
    obtain ⟨holder, among, reads⟩ := held
    rcases List.mem_cons.mp (perm.mem_iff.mp among) with rfl | other
    · exact ⟨_, perm'.mem_iff.mpr (List.mem_map.mpr ⟨proc, List.mem_cons_self, rfl⟩),
        by rw [kept, mine, reads]⟩
    · exact ⟨_, perm'.mem_iff.mpr (List.mem_map.mpr ⟨holder, List.mem_cons_of_mem _ other, rfl⟩),
        by rw [kept, reads]⟩
  have addrs : (after.procs.map Proc.addr).Perm (k.procs.map Proc.addr) := by
    refine (perm'.map _).trans (.trans (.of_eq ?_) (perm.map _).symm)
    simp only [List.map_cons, List.map_map, keeps, same.1]
    congr 1
    exact List.map_congr_left fun other _ => (keeps other).1
  refine ⟨?_, ?_, ?_, addrs.nodup_iff.mpr inv.distinct, ?_⟩
  · have files : tally liveFiles after.procs = withUser (tally liveFiles rest) (liveFiles proc) := by
      rw [tally_perm perm', tally_map change fun user _ => (keeps user).2.2.1, tally_cons]
    have mms : tally liveMm after.procs = withUser (tally liveMm rest) (liveMm proc) := by
      rw [tally_perm perm', tally_map change fun user _ => (keeps user).2.2.2, tally_cons]
    rw [files, mms]
    exact tables
  · intro kstack allocated
    rw [kstacks] at allocated
    exact transfer Proc.kstack (fun proc => (keeps proc).2.1) same.2 _ (inv.kstacks kstack allocated)
  · intro addr allocated
    rw [procStructs] at allocated
    exact transfer Proc.addr (fun proc => (keeps proc).1) same.1 _ (inv.procStructs addr allocated)
  · intro other among
    have addr := addrs.mem_iff.mp (List.mem_map.mpr ⟨other, among, rfl⟩)
    obtain ⟨old, member, eq⟩ := List.mem_map.mp addr
    have known := inv.known old member
    omega

/-! ## Fork -/

/-- Nothing is left of a child whose creation failed. -/
theorem Inv.unwound (inv : Inv base k)
    (tables : Tables base (tally liveFiles k.procs) (tally liveMm k.procs) after)
    (procs : after.procs = k.procs) (next : k.next ≤ after.next)
    (kstacks : ∀ kstack, after.kstacks kstack = true → k.kstacks kstack = true)
    (procStructs : ∀ addr, after.procStructs addr = true → k.procStructs addr = true) :
    Inv base after := by
  refine ⟨procs ▸ tables, ?_, ?_, procs ▸ inv.distinct, ?_⟩
  · rw [procs]
    exact fun kstack allocated => inv.kstacks kstack (kstacks kstack allocated)
  · rw [procs]
    exact fun addr allocated => inv.procStructs addr (procStructs addr allocated)
  · rw [procs]
    exact fun proc member => Nat.lt_of_lt_of_le (inv.known proc member) next

theorem released_again {table : Nat → Bool}
    (allocated : Function.update (Function.update table name true) name false other = true) :
    table other = true := by
  by_cases same : other = name
  · rw [same, Function.update_self] at allocated
    cases allocated
  · rwa [Function.update_of_ne same, Function.update_of_ne same] at allocated

/-- A fork adds one process with what it holds, or leaves everything as it was. -/
theorem Inv.doFork (inv : Inv base k)
    (ran : Process.doFork k current flags memory pid = some (after, ret)) : Inv base after := by
  unfold Process.doFork at ran
  split at ran
  · cases ran
    exact inv
  split at ran
  · cases ran
    exact inv
  dsimp only at ran
  split at ran
  · cases ran
    exact inv.unwound (inv.tables.grow.congr rfl rfl rfl rfl) rfl (Nat.le_succ _)
      (fun _ allocated => allocated) fun _ allocated => released_again allocated
  -- the tables with the names of the `proc_struct` and the kernel stack taken
  have named : Tables base (tally liveFiles k.procs) (tally liveMm k.procs)
      (setupKstack (allocProc k).1 { (allocProc k).2 with parent := some current.addr }).1 :=
    inv.tables.grow.grow.congr rfl rfl rfl rfl
  obtain ⟨⟨filed, result⟩, copied, ran⟩ := Option.bind_eq_some_iff.mp ran
  obtain ⟨apart, failed, shared⟩ := named.copyFiles copied
  cases result with
  | none =>
    cases ran
    rw [failed rfl]
    exact inv.unwound (inv.tables.grow.grow.congr rfl rfl rfl rfl) rfl
      (Nat.le_succ_of_le (Nat.le_succ _)) (fun _ allocated => released_again allocated)
      fun _ allocated => released_again allocated
  | some filesp =>
    have filed_tables := shared filesp rfl
    obtain ⟨⟨mapped, result⟩, duplicated, ran⟩ := Option.bind_eq_some_iff.mp ran
    obtain ⟨apart', failed', shared'⟩ := filed_tables.copyMm duplicated
    cases result with
    | none =>
      obtain ⟨put, dropped, rest⟩ := Option.map_eq_some_iff.mp ran
      cases rest
      rw [failed' rfl] at dropped
      obtain ⟨tables, apart''⟩ := filed_tables.putFiles dropped
      have whole := apart.trans apart''
      refine inv.unwound (tables.congr rfl rfl rfl rfl) whole.procs
        (Nat.le_trans (Nat.le_succ_of_le (Nat.le_succ _)) whole.next) ?_ ?_
      · intro kstack allocated
        have freed : Function.update put.kstacks (k.next + 1) false kstack = true := allocated
        rw [whole.kstacks] at freed
        exact released_again freed
      · intro addr allocated
        have freed : Function.update put.procStructs k.next false addr = true := allocated
        rw [whole.procStructs] at freed
        exact released_again freed
    | some mm =>
      cases ran
      have whole := apart.trans apart'
      have procs : mapped.procs = k.procs := whole.procs
      have next : k.next + 1 + 1 ≤ mapped.next := whole.next
      refine ⟨?_, ?_, ?_, ?_, ?_⟩
      · simp only [setLinks, procs, tally_cons]
        exact (shared' mm rfl).congr rfl rfl rfl rfl
      · intro kstack allocated
        have held : Function.update k.kstacks (k.next + 1) true kstack = true :=
          (congrFun whole.kstacks kstack).symm.trans allocated
        by_cases own : kstack = k.next + 1
        · exact ⟨_, List.mem_cons_self, by rw [own]; rfl⟩
        · rw [Function.update_of_ne own] at held
          obtain ⟨proc, member, eq⟩ := inv.kstacks kstack held
          exact ⟨proc, List.mem_cons_of_mem _ (procs ▸ member), eq⟩
      · intro addr allocated
        have held : Function.update k.procStructs k.next true addr = true :=
          (congrFun whole.procStructs addr).symm.trans allocated
        by_cases own : addr = k.next
        · exact ⟨_, List.mem_cons_self, own.symm⟩
        · rw [Function.update_of_ne own] at held
          obtain ⟨proc, member, eq⟩ := inv.procStructs addr held
          exact ⟨proc, List.mem_cons_of_mem _ (procs ▸ member), eq⟩
      · simp only [setLinks, procs, List.map_cons, List.nodup_cons]
        refine ⟨fun member => ?_, inv.distinct⟩
        obtain ⟨proc, among, same⟩ := List.mem_map.mp member
        have known := inv.known proc among
        have addr : proc.addr = k.next := same
        omega
      · intro proc member
        rcases List.mem_cons.mp member with rfl | other
        · exact Nat.lt_of_lt_of_le (Nat.lt_succ_of_lt (Nat.lt_succ_self k.next)) next
        · rw [procs] at other
          have known := inv.known proc other
          simp only [setLinks]
          omega

/-! ## Exit -/

theorem liveFiles_live (live : proc.zombie = false) : liveFiles proc = proc.filesp := by
  rw [liveFiles, live, if_neg Bool.false_ne_true]

theorem liveMm_live (live : proc.zombie = false) : liveMm proc = proc.mm := by
  rw [liveMm, live, if_neg Bool.false_ne_true]

/-- A process with an mm gives everything back but its stack and `proc_struct`. -/
theorem Inv.doExit (inv : Inv base k) (member : current ∈ k.procs) (live : current.zombie = false)
    (mm : current.mm ≠ none) (ran : Process.doExit k current errorCode = some after) :
    Inv base after := by
  obtain ⟨rest, perm, others⟩ := inv.others member
  have tables := inv.tables
  rw [tally_perm perm, tally_perm perm, tally_cons, tally_cons, liveFiles_live live,
    liveMm_live live] at tables
  unfold Process.doExit at ran
  split at ran
  · cases ran
  obtain ⟨released, gave, rfl⟩ := Option.map_eq_some_iff.mp ran
  have given : Tables base (tally liveFiles rest) (tally liveMm rest) released ∧ Apart k released := by
    split at gave
    · rename_i mm filesp own_mm own_files
      rw [own_mm, own_files] at tables
      obtain ⟨dropped, drop, put⟩ := Option.bind_eq_some_iff.mp gave
      obtain ⟨unmapped, apart⟩ := tables.dropMm drop
      obtain ⟨closed, apart'⟩ := unmapped.putFiles put
      exact ⟨closed, apart.trans apart'⟩
    · rename_i own_mm own_files none_left
      have no_files : current.filesp = none := by
        cases files : current.filesp with
        | none => rfl
        | some filesp =>
          obtain ⟨mm, has⟩ := Option.ne_none_iff_exists'.mp mm
          exact absurd files (none_left mm filesp has)
      rw [no_files] at tables
      exact tables.releaseMm gave
  obtain ⟨tables, apart⟩ := given
  have perm' : released.procs.Perm (current :: rest) := apart.procs ▸ perm
  have exited := setProc_perm perm' others (current.exited errorCode) rfl
  refine inv.of_changed perm (adopted released.initproc current.addr) ?_
    (current.exited errorCode) ⟨rfl, rfl⟩ ((reparent_perm _ _).trans (exited.map _)) ?_
    apart.kstacks apart.procStructs apart.next
  · intro proc
    unfold adopted
    split <;> exact ⟨rfl, rfl, rfl, rfl⟩
  · exact tables.congr rfl rfl rfl rfl

/-! ## Exec -/

/-- What `do_execve` may meet without an exit of a process that has no mm: a bad
argument, a file that loads, or for a user process one that does not open. -/
def ExecKept (current : Proc) (badArguments : Option Int) (file : Except Int Nat)
    (loaded : Loaded) : Prop :=
  badArguments = none → match file with
    | .ok _ => loaded = .done
    | .error _ => current.mm ≠ none

theorem Inv.doExecve (inv : Inv base k) (member : current ∈ k.procs)
    (live : current.zombie = false) (kept : ExecKept current badArguments file loaded)
    (ran : Process.doExecve k current badArguments file loaded = some after) : Inv base after := by
  unfold Process.doExecve at ran
  split at ran
  · cases ran
    exact inv
  · cases ran
  rename_i filesp own_files
  obtain ⟨closed, close, opening⟩ := Option.bind_eq_some_iff.mp ran
  obtain ⟨⟨opened, result⟩, open_file, loading⟩ := Option.bind_eq_some_iff.mp opening
  obtain ⟨tables, apart, files, found, room⟩ := inv.tables.filesCloseall close
  obtain ⟨tables, apart'⟩ := tables.fileOpen open_file
  have whole := apart.trans apart'
  have inv' := inv.of_tables whole tables
  have member' : current ∈ opened.procs := whole.procs ▸ member
  rcases fileOpen_file open_file found room with ⟨ret, rfl, rfl⟩ | ⟨fd, node, rfl, rfl⟩
  · exact inv'.doExit member' live (kept rfl) loading
  · obtain rfl : loaded = .done := kept rfl
    obtain ⟨released, release, ending⟩ := Option.bind_eq_some_iff.mp loading
    obtain ⟨loaded, shut, rfl⟩ := Option.map_eq_some_iff.mp ending
    obtain ⟨rest, perm, others⟩ := inv'.others member'
    have tables := inv'.tables
    rw [tally_perm perm, tally_perm perm, tally_cons, tally_cons, liveFiles_live live,
      liveMm_live live] at tables
    obtain ⟨unmapped, apart⟩ := tables.releaseMm release
    obtain ⟨shut_tables, apart'⟩ := unmapped.fileClose shut
    obtain ⟨created, apart''⟩ := shut_tables.mmCreate
    have whole := (apart.trans apart').trans apart''
    have perm' : (mmCreate loaded).1.procs.Perm (current :: rest) := whole.procs ▸ perm
    refine inv'.of_changed perm (fun proc => proc) (fun _ => ⟨rfl, rfl, rfl, rfl⟩)
      { current with mm := some (mmCreate loaded).2 } ⟨rfl, rfl⟩ ?_ ?_ whole.kstacks
      whole.procStructs whole.next
    · rw [List.map_id']
      exact setProc_perm perm' others _ rfl
    · have own_files : liveFiles { current with mm := some (mmCreate loaded).2 } = current.filesp :=
        liveFiles_live live
      have own_mm : liveMm { current with mm := some (mmCreate loaded).2 } =
        some (mmCreate loaded).2 := liveMm_live live
      rw [own_files, own_mm]
      exact created.congr rfl rfl rfl rfl

/-! ## Wait -/

/-- A reaped zombie leaves nothing behind. -/
theorem Inv.reap (inv : Inv base k) (member : child ∈ k.procs) (zombie : child.zombie = true) :
    Inv base (Process.reap k child) := by
  obtain ⟨rest, perm, others⟩ := inv.others member
  have left : (Process.reap k child).procs.Perm rest := by
    have filtered := perm.filter fun other => !(other.addr = child.addr)
    rw [List.filter_cons_of_neg (by simp)] at filtered
    refine filtered.trans (.of_eq (List.filter_eq_self.mpr fun proc among => ?_))
    simp [others proc among]
  have tables := inv.tables
  have no_files : liveFiles child = none := by rw [liveFiles, zombie, if_pos rfl]
  have no_mm : liveMm child = none := by rw [liveMm, zombie, if_pos rfl]
  rw [tally_perm perm, tally_perm perm, tally_cons, tally_cons, no_files, no_mm] at tables
  refine ⟨?_, ?_, ?_, ?_, ?_⟩
  · rw [tally_perm left, tally_perm left]
    exact tables.congr rfl rfl rfl rfl
  · intro kstack allocated
    have still : k.kstacks kstack = true ∧ child.kstack ≠ some kstack := by
      simp only [Process.reap, putKstack, kfreeProc] at allocated
      cases has : child.kstack with
      | none =>
        rw [has] at allocated
        exact ⟨allocated, by simp⟩
      | some own =>
        rw [has] at allocated
        by_cases same : kstack = own
        · simp [same] at allocated
        · have freed : Function.update k.kstacks own false kstack = true := allocated
          rw [Function.update_of_ne same] at freed
          exact ⟨freed, by simpa using fun eq => same eq.symm⟩
    obtain ⟨proc, among, has⟩ := inv.kstacks kstack still.1
    rcases List.mem_cons.mp (perm.mem_iff.mp among) with rfl | other
    · exact absurd has still.2
    · exact ⟨proc, left.mem_iff.mpr other, has⟩
  · intro addr allocated
    have freed : Function.update k.procStructs child.addr false addr = true := allocated
    have still : k.procStructs addr = true ∧ addr ≠ child.addr := by
      by_cases same : addr = child.addr
      · rw [same, Function.update_self] at freed
        cases freed
      · rw [Function.update_of_ne same] at freed
        exact ⟨freed, same⟩
    obtain ⟨proc, among, has⟩ := inv.procStructs addr still.1
    rcases List.mem_cons.mp (perm.mem_iff.mp among) with rfl | other
    · exact absurd has.symm still.2
    · exact ⟨proc, left.mem_iff.mpr other, has⟩
  · have distinct := (perm.map Proc.addr).nodup_iff.mp inv.distinct
    rw [List.map_cons, List.nodup_cons] at distinct
    exact (left.map Proc.addr).nodup_iff.mpr distinct.2
  · intro proc among
    exact inv.known proc (perm.mem_iff.mpr (List.mem_cons_of_mem _ (left.mem_iff.mp among)))

theorem Inv.doWait (inv : Inv base k)
    (ran : Process.doWait k current pid = some (after, waited)) : Inv base after := by
  unfold Process.doWait at ran
  split at ran
  · rename_i child found
    split at ran
    · cases ran
    · cases ran
      refine inv.reap ?_ (List.find?_some found)
      have among := List.mem_of_find?_eq_some found
      unfold waitedFor at among
      split at among
      · exact (List.mem_filter.mp among).1
      · obtain ⟨found, _⟩ := Option.filter_eq_some_iff.mp (Option.mem_toList.mp among)
        unfold findProc at found
        split at found
        · exact List.mem_of_find?_eq_some found
        · cases found
  · cases ran
    exact inv

/-! ## Runs -/

/-- The condition on a call: no process without an mm exits. -/
def Kept (k : Kernel) (event : Nat × Event) : Prop :=
  ∀ current, currentAt k event.1 = some current → match event.2 with
    | .exit _ => current.mm ≠ none
    | .exec badArguments file loaded => ExecKept current badArguments file loaded
    | _ => True

theorem step_inv (inv : Inv base k) (kept : Kept k event) (ran : step k event = some after) :
    Inv base after := by
  unfold step at ran
  split at ran
  · rename_i current found
    have member := List.mem_of_find?_eq_some found
    have live : current.zombie = false := by
      have selected := List.find?_some found
      simp only [Bool.and_eq_true, Bool.not_eq_true'] at selected
      exact selected.2
    have met := kept current found
    obtain ⟨addr, event⟩ := event
    cases event with
    | fork flags memory pid =>
      obtain ⟨⟨_, _⟩, forked, rfl⟩ := Option.map_eq_some_iff.mp ran
      exact inv.doFork forked
    | kernelThread flags memory pid =>
      obtain ⟨⟨_, _⟩, forked, rfl⟩ := Option.map_eq_some_iff.mp ran
      exact inv.doFork forked
    | exec badArguments file loaded => exact inv.doExecve member live met ran
    | exit errorCode => exact inv.doExit member live met ran
    | wait pid =>
      obtain ⟨⟨_, _⟩, waited, rfl⟩ := Option.map_eq_some_iff.mp ran
      exact inv.doWait waited
    | openFile file =>
      obtain ⟨filesp, _, rest⟩ := Option.bind_eq_some_iff.mp ran
      obtain ⟨⟨_, _⟩, opened, rfl⟩ := Option.map_eq_some_iff.mp rest
      obtain ⟨tables, apart⟩ := inv.tables.fileOpen opened
      exact inv.of_tables apart tables
    | closeFile fd =>
      obtain ⟨filesp, _, closed⟩ := Option.bind_eq_some_iff.mp ran
      obtain ⟨tables, apart⟩ := inv.tables.fileClose closed
      exact inv.of_tables apart tables
    | chdir dir =>
      obtain ⟨filesp, _, moved⟩ := Option.bind_eq_some_iff.mp ran
      obtain ⟨tables, apart⟩ := inv.tables.vfsChdir moved
      exact inv.of_tables apart tables
  · cases ran
    exact inv

theorem idleInit_inv (inodes : Nat → Inode) : Inv inodes (idleInit inodes) := by
  have files : (idleInit inodes).files 1 = some ⟨1, none, List.replicate filesStructNentry none⟩ := by
    simp only [idleInit, Function.update_self]
  have others (id : Nat) (other : id ≠ 1) : (idleInit inodes).files id = none := by
    simp only [idleInit, Function.update_of_ne other]
  have nothing (node : Nat) : total (idleInit inodes) (·.refs node) = 0 ∧
      total (idleInit inodes) (·.opens node) = 0 := by
    have next : (idleInit inodes).next = 2 := rfl
    have zero := others 0 (by decide)
    simp [total, next, Finset.sum_range_succ, files, zero, FilesStruct.refs, FilesStruct.opens,
      List.count_replicate]
  refine ⟨⟨?_, ?_, ?_, ?_, ?_, ?_⟩, by simp [idleInit], ?_, by simp [idleInit], by simp [idleInit, idleproc]⟩
  · intro id
    by_cases idle : id = 1
    · subst idle
      rw [files]
      simp [idleInit, tally, liveFiles]
    · rw [others id idle]
      have apart : ¬ 1 = id := fun eq => idle eq.symm
      simp [idleInit, tally, liveFiles, apart]
  · intro id
    simp [idleInit, tally, liveMm]
  · intro node
    rw [(nothing node).1]
    simp [idleInit]
  · intro node
    rw [(nothing node).2]
    simp [idleInit]
  · intro id beyond
    have next : 2 ≤ id := beyond
    exact ⟨others id (by omega), rfl⟩
  · intro id opened found
    by_cases idle : id = 1
    · subst idle
      rw [files] at found
      cases found
      simp
    · rw [others id idle] at found
      cases found
  · intro addr allocated
    by_cases idle : addr = idleproc
    · exact ⟨_, List.mem_cons_self, idle.symm⟩
    · simp [idleInit, idle] at allocated

theorem procInit_inv (booted : procInit inodes pid kpuPid = some k) : Inv inodes k := by
  unfold procInit at booted
  obtain ⟨idle, _, booted⟩ := Option.bind_eq_some_iff.mp booted
  obtain ⟨⟨first, _⟩, created, booted⟩ := Option.bind_eq_some_iff.mp booted
  obtain ⟨⟨second, _⟩, created', booted⟩ := Option.bind_eq_some_iff.mp booted
  obtain ⟨initproc, _, rfl⟩ := Option.map_eq_some_iff.mp booted
  have inv := ((idleInit_inv inodes).doFork created).doFork created'
  exact ⟨inv.tables.congr rfl rfl rfl rfl, inv.kstacks, inv.procStructs, inv.distinct, inv.known⟩

/-- **Conservation.** In every run from boot in which no process without an mm
exits, counts are numbers of live processes and everything allocated is still
held: what only a reaped process held has been released. -/
theorem resources_conserved (booted : procInit inodes pid kpuPid = some k)
    (along : Along step Kept k events) (ran : run step k events = some final) :
    Conserved inodes final :=
  (run_keeps (fun _ _ _ inv kept ran => step_inv inv kept ran) (procInit_inv booted) along ran).conserved

def plenty : Memory := ⟨true, true, true, true⟩

/-- Every inode is held once besides. -/
def oneRef : Nat → Inode := fun _ => ⟨1, 0⟩

/-- `init_main` starts a program, which exits and is reaped. -/
def oneProgram : List (Nat × Event) :=
  [(2, .kernelThread ⟨false, false⟩ plenty 3), (8, .exec none (.ok 5) .done), (8, .exit 0),
    (2, .wait 0)]

theorem one_program_conserved : ∃ k final, procInit oneRef 1 2 = some k ∧
    run step k oneProgram = some final ∧ Conserved oneRef final := by
  have along {k : Kernel} (booted : procInit oneRef 1 2 = some k) :
      Along step Kept k oneProgram := by
    refine ⟨fun _ _ => trivial, fun _ started => ⟨fun _ _ _ => rfl, fun _ loaded => ⟨?_, fun _ exited =>
      ⟨fun _ _ => trivial, fun _ _ => trivial⟩⟩⟩⟩
    cases booted
    cases started
    cases loaded
    rintro _ ⟨⟩
    simp
  obtain ⟨k, final, booted, ran⟩ : ∃ k final, procInit oneRef 1 2 = some k ∧
      run step k oneProgram = some final := ⟨_, _, rfl, rfl⟩
  exact ⟨k, final, booted, ran, resources_conserved booted (along booted) ran⟩

/-- The program forks, and its child runs a file that is not a program. -/
def badProgram : List (Nat × Event) :=
  [(2, .kernelThread ⟨false, false⟩ plenty 3), (8, .exec none (.ok 5) .done),
    (8, .fork ⟨false, false⟩ plenty 4), (12, .exec none (.ok 6) (.failed false (-8))), (8, .wait 4)]

/-- The child is reaped and its `files_struct` stays, with the file open. -/
theorem bad_program_leaks : ∃ k final, procInit oneRef 1 2 = some k ∧
    run step k badProgram = some final ∧ ¬ Conserved oneRef final := by
  refine ⟨_, _, rfl, rfl, fun conserved => ?_⟩
  exact absurd (conserved.files 14).2 (by decide)

end Ucore.Process
