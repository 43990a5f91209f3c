import Ucore.FileTable
import Ucore.Holdings

/-! An open file lives from the end of its `file_open` to the end of the last call that
uses it. Whatever the order of the steps of processes that share tables, an entry is
given out once, it is given up once, and its inode has exactly the references of the
files, the working directories and the calls on the way. -/
namespace Ucore.FileTable
open Holdings Runs

/-! ## Who holds what -/

variable {π τ ι : Type} [DecidableEq τ] [DecidableEq ι]

namespace Frame

/-- Whether the call owns an entry that is `FD_INIT`. -/
def owns (frame : Frame τ ι) (ptr : τ × Fd) : Nat :=
  match frame with
  | .opens file _ | .truncates file _ _ | .abandons file _ _ | .forgets file _ => if file = ptr then 1 else 0
  | _ => 0

/-- Whether the call has acquired a file. -/
def users (frame : Frame τ ι) (ptr : τ × Fd) : Nat :=
  match frame with
  | .uses file _ _ => if file = ptr then 1 else 0
  | _ => 0

/-- Whether the call is in `fd_array_free` of a file that is `FD_CLOSED`. -/
def frees (frame : Frame τ ι) (ptr : τ × Fd) : Nat :=
  match frame with
  | .closes file _ _ | .drops file _ => if file = ptr then 1 else 0
  | _ => 0

/-- Whether the call has an inode open. -/
def opened (frame : Frame τ ι) (node : ι) : Nat :=
  match frame with
  | .truncates _ _ held => if held = node then 1 else 0
  | _ => 0

/-- Whether the call has a reference to an inode. -/
def refers (frame : Frame τ ι) (node : ι) : Nat :=
  match frame with
  | .truncates _ _ held | .abandons _ held _ | .closes _ held _ => if held = node then 1 else 0
  | _ => 0

/-- The table that the call destroys. -/
def destroys : Frame τ ι → Option τ
  | .closes file _ (.destroy _) | .drops file (.destroy _) => some file.1
  | .leaves t => some t
  | _ => none

end Frame

namespace File

/-- A file that is open has its inode open, and a reference to it, until its last user is gone. -/
def Live (file : File ι) : Prop := file.status = .fdOpened ∨ file.status = .fdClosed ∧ 0 < file.openCount

instance (file : File ι) : Decidable file.Live := inferInstanceAs (Decidable (_ ∨ _))

/-- What an entry is like, by the calls at work on it. -/
def Fits (file : File ι) (users owners freers : Nat) : Prop :=
  match file.status with
  | .fdNone => file.openCount = 0 ∧ users = 0 ∧ owners = 0 ∧ freers = 0
  | .fdInit => file.openCount = 0 ∧ users = 0 ∧ owners = 1 ∧ freers = 0
  | .fdOpened => file.openCount = users + 1 ∧ owners = 0 ∧ freers = 0 ∧ file.node.isSome
  | .fdClosed => file.openCount = users ∧ owners = 0 ∧ freers = (if users = 0 then 1 else 0) ∧ file.node.isSome

end File

/-- What an entry has of an inode. -/
def fileHolds (file : Option (File ι)) (node : ι) : Nat :=
  if ∃ file' ∈ file, file'.Live ∧ file'.node = some node then 1 else 0

def pwdHolds (files : Option (FilesStruct ι)) (node : ι) : Nat :=
  if ∃ files' ∈ files, files'.pwd = some node then 1 else 0

def shares (filesp : Option τ) (t : τ) : Nat := if filesp = some t then 1 else 0

/-! ## The invariant -/

def Listed (fd : Fd) (users owners freers : Nat) : Option (File ι) → Prop
  | none => users = 0 ∧ owners = 0 ∧ freers = 0
  | some file => file.fd = fd ∧ file.Fits users owners freers

section
variable (k : Kernel π τ ι) (p : π)

/-- The table can be destroyed. -/
def Ends (t : τ) : Prop := ∃ files, k.files t = some files ∧ files.filesCount = 0 ∧ files.pwd = none

/-- The entries that `files_destroy` is past. -/
def Emptied (t : τ) (fds : List Fd) : Prop := ∀ fd, fd ∉ fds → ∃ file, k.file (t, fd) = some file ∧ file.status = .fdNone

def Rests (ptr : τ × Fd) : Rest → Prop
  | .done _ | .closeall _ => k.filesp p = some ptr.1
  | .destroy fds => Ends k ptr.1 ∧ Emptied k ptr.1 (ptr.2 :: fds)

/-- Where a call is allows it to go on. -/
def Sits : Frame τ ι → Prop
  | .user => True
  | .opens ptr _ | .truncates ptr _ _ | .abandons ptr _ _ | .forgets ptr _ => k.filesp p = some ptr.1
  | .uses ptr node _ => k.filesp p = some ptr.1 ∧ ∃ file, k.file ptr = some file ∧ file.node = some node
  | .closes ptr _ rest | .drops ptr rest => Rests k p ptr rest
  | .leaves t => Ends k t

end

variable {k after : Kernel π τ ι} {frame : π → Frame τ ι} {old new : Frame τ ι} {p q : π} {t : τ}
  {ptr other : τ × Fd} {node : ι} {file changed : File ι} {inodes : ι → Inode}

omit [DecidableEq τ] [DecidableEq ι] in
theorem files_of_file (found : k.file ptr = some file) : ∃ files, k.files ptr.1 = some files ∧ files.fdArray ptr.2 = file :=
  Option.map_eq_some_iff.mp found

omit [DecidableEq ι] in
theorem file_setFile (found : k.file ptr = some file) :
    (k.setFile ptr changed).file = Function.update k.file ptr (some changed) := by
  obtain ⟨files, here, -⟩ := files_of_file found
  funext other
  by_cases same : other = ptr
  · subst same
    simp [Kernel.file, Kernel.setFile, Kernel.setFiles, here]
  · rw [Function.update_of_ne same]
    by_cases table : other.1 = ptr.1
    · have index : other.2 ≠ ptr.2 := fun index => same (Prod.ext table index)
      simp [Kernel.file, Kernel.setFile, Kernel.setFiles, table, here, index]
    · simp [Kernel.file, Kernel.setFile, Kernel.setFiles, table]

omit [DecidableEq ι] in
/-- What a change to an entry leaves of the tables. -/
theorem files_setFile (t : τ) (files : FilesStruct ι) (here : (k.setFile ptr changed).files t = some files) :
    ∃ before, k.files t = some before ∧ files.filesCount = before.filesCount ∧ files.pwd = before.pwd := by
  by_cases same : t = ptr.1
  · subst same
    have whole : (k.files ptr.1).map (fun files =>
        { files with fdArray := Function.update files.fdArray ptr.2 changed }) = some files := by
      simpa [Kernel.setFile, Kernel.setFiles] using here
    obtain ⟨before, found, rfl⟩ := Option.map_eq_some_iff.mp whole
    exact ⟨before, found, rfl, rfl⟩
  · have found : k.files t = some files := by
      simpa [Kernel.setFile, Kernel.setFiles, same] using here
    exact ⟨files, found, rfl, rfl⟩

omit [DecidableEq ι] in
@[simp] theorem inodes_setFile : (k.setFile ptr changed).inodes = k.inodes := rfl

omit [DecidableEq ι] in
@[simp] theorem filesp_setFile : (k.setFile ptr changed).filesp = k.filesp := rfl

omit [DecidableEq ι] in
@[simp] theorem frame_setFile : (k.setFile ptr changed).frame = k.frame := rfl

omit [DecidableEq ι] in
theorem setFile_setFile (second : File ι) : (k.setFile ptr file).setFile ptr second = k.setFile ptr second := by
  cases here : k.files ptr.1 <;> simp [Kernel.setFile, Kernel.setFiles, here]

omit [DecidableEq ι] in
theorem fdArrayOpen_eq (found : k.file ptr = some file) (status : file.status = .fdInit) (node : file.node.isSome) :
    fdArrayOpen k ptr = some (k.setFile ptr { file with status := .fdOpened, openCount := file.openCount + 1 }) := by
  simp [fdArrayOpen, found, status, node]

theorem fdArrayFree_closed (found : k.file ptr = some file) (status : file.status = .fdClosed)
    (zero : file.openCount = 0) (there : file.node = some node) :
    fdArrayFree k ptr = (vopOpenDec k node).map fun k => (k, some node) := by
  simp only [fdArrayFree, found, Option.bind_eq_bind, Option.bind_some, status, zero, there, guard]
  cases vopOpenDec k node <;> simp

omit [DecidableEq τ] in
theorem vopOpenDec_eq (positive : 0 < (k.inodes node).openCount) (check : inodeCheck (k.inodes node)) :
    vopOpenDec k node = some (k.setInode node { k.inodes node with openCount := (k.inodes node).openCount - 1 }) := by
  have check' : inodeCheck { k.inodes node with openCount := (k.inodes node).openCount - 1 } := by
    obtain ⟨below, small, small'⟩ := check
    exact ⟨by simp only; omega, small, by simp only; omega⟩
  simp [vopOpenDec, positive, check']

omit [DecidableEq τ] in
/-- A reference of a holder that has the inode not open. -/
theorem vopRefDec_eq (below : (k.inodes node).openCount < (k.inodes node).refCount) :
    vopRefDec k node = some (k.setInode node { k.inodes node with refCount := (k.inodes node).refCount - 1 }) := by
  have check : (k.inodes node).refCount - 1 = 0 →
      inodeCheck { k.inodes node with refCount := (k.inodes node).refCount - 1 } := by
    intro last
    refine ⟨by simp only; omega, by simp [last, maxInodeCount], ?_⟩
    have none_open : (k.inodes node).openCount = 0 := by omega
    simp [none_open, maxInodeCount]
  have positive : 0 < (k.inodes node).refCount := by omega
  simp only [vopRefDec, positive, guard, if_true]
  rw [if_pos check]
  rfl

omit [DecidableEq τ] in
theorem fileHolds_live (live : file.Live) (node : ι) : fileHolds (some file) node = if file.node = some node then 1 else 0 := by
  simp [fileHolds, live]

omit [DecidableEq τ] in
theorem fileHolds_dead (dead : ¬ file.Live) (node : ι) : fileHolds (some file) node = 0 := by
  simp [fileHolds, dead]

/-- What all entries have of an inode, when one of them changes. -/
theorem total_file [Fintype τ] (found : k.file ptr = some file) (changed : File ι) (node : ι) :
    total fileHolds (k.setFile ptr changed).file node + fileHolds (some file) node =
      total fileHolds k.file node + fileHolds (some changed) node := by
  rw [file_setFile found, total_update, total_eq ptr, found]
  omega

theorem total_pwd_setFile [Fintype τ] (k : Kernel π τ ι) (ptr : τ × Fd) (changed : File ι) (node : ι) :
    total pwdHolds (k.setFile ptr changed).files node = total pwdHolds k.files node := by
  apply Finset.sum_congr rfl
  intro t _
  by_cases same : t = ptr.1
  · subst same
    cases here : k.files ptr.1 <;> simp [Kernel.setFile, Kernel.setFiles, pwdHolds, here]
  · simp [Kernel.setFile, Kernel.setFiles, same]

omit [DecidableEq ι] in
theorem isSome_setFile (t : τ) : ((k.setFile ptr changed).files t).isSome = (k.files t).isSome := by
  by_cases same : t = ptr.1
  · subst same
    simp [Kernel.setFile, Kernel.setFiles]
  · simp [Kernel.setFile, Kernel.setFiles, same]

omit [DecidableEq ι] in
theorem Ends.setFile (ends : Ends k t) : Ends (k.setFile ptr changed) t := by
  obtain ⟨files, here, count, pwd⟩ := ends
  have there : ((k.setFile ptr changed).files t).isSome := by
    rw [isSome_setFile, here]
    rfl
  obtain ⟨files', here'⟩ := Option.isSome_iff_exists.mp there
  obtain ⟨before, here'', count', pwd'⟩ := files_setFile t files' here'
  cases here.symm.trans here''
  exact ⟨files', here', count'.trans count, pwd'.trans pwd⟩

omit [DecidableEq τ] [DecidableEq ι] in
/-- Where a call is, the entries, its own table and the tables that end matter. -/
theorem Sits.kept (sits : Sits k p old) (file : after.file = k.file) (filesp : old.destroys = none → after.filesp p = k.filesp p)
    (ends : ∀ t, old.destroys = some t → Ends k t → Ends after t) : Sits after p old := by
  cases old with
  | uses ptr node use => exact ⟨(filesp rfl).trans sits.1, by rw [file]; exact sits.2⟩
  | closes ptr node rest | drops ptr rest =>
    cases rest with
    | destroy fds => exact ⟨ends ptr.1 rfl sits.1, fun fd outside => by rw [file]; exact sits.2 fd outside⟩
    | _ => exact (filesp rfl).trans sits
  | leaves t => exact ends t rfl sits
  | user => trivial
  | _ => exact (filesp rfl).trans sits

omit [DecidableEq τ] [DecidableEq ι] in
theorem Sits.congr (sits : Sits k p old) (files : after.files = k.files) (filesp : after.filesp p = k.filesp p) :
    Sits after p old := by
  refine sits.kept ?_ (fun _ => filesp) fun t _ ends => ?_
  · funext ptr
    simp only [Kernel.file, files]
  · obtain ⟨table, here, idle⟩ := ends
    exact ⟨table, files ▸ here, idle⟩

omit [DecidableEq ι] in
/-- Who is at work elsewhere goes on. -/
theorem Sits.setFile (sits : Sits k p old) (found : k.file ptr = some file)
    (node : old.users ptr ≠ 0 → changed.node = file.node) (apart : old.destroys ≠ some ptr.1) :
    Sits (k.setFile ptr changed) p old := by
  have emptied (t : τ) (fds : List Fd) (away : t ≠ ptr.1) (before : Emptied k t fds) :
      Emptied (k.setFile ptr changed) t fds := by
    intro fd outside
    rw [file_setFile found, Function.update_of_ne fun same => away (congrArg Prod.fst same)]
    exact before fd outside
  cases old with
  | uses here inode use =>
    obtain ⟨table, before, here', same⟩ := sits
    refine ⟨table, ?_⟩
    rw [file_setFile found]
    by_cases at_ptr : here = ptr
    · subst at_ptr
      cases found.symm.trans here'
      exact ⟨changed, Function.update_self .., (node (by simp [Frame.users])).trans same⟩
    · exact ⟨before, (Function.update_of_ne at_ptr ..).trans here', same⟩
  | closes here inode rest | drops here rest =>
    cases rest with
    | destroy fds => exact ⟨sits.1.setFile, emptied _ _ (fun same => apart (congrArg some same)) sits.2⟩
    | _ => exact sits
  | leaves t => exact Ends.setFile sits
  | user => trivial
  | _ => exact sits

variable [Fintype π] [Fintype τ]

structure Sound (k : Kernel π τ ι) (frame : π → Frame τ ι) : Prop where
  listed : ∀ ptr, Listed ptr.2 (total Frame.users frame ptr) (total Frame.owns frame ptr)
    (total Frame.frees frame ptr) (k.file ptr)
  sharers : ∀ t files, k.files t = some files → files.filesCount = total shares k.filesp t
  there : ∀ p t, k.filesp p = some t → (k.files t).isSome
  sits : ∀ p, Sits k p (frame p)
  alone : ∀ p q t, (frame p).destroys = some t → (frame q).destroys = some t → p = q
  opens : ∀ node, (k.inodes node).openCount = total fileHolds k.file node + total Frame.opened frame node
  refs : ∀ node, (k.inodes node).refCount = total fileHolds k.file node + total Frame.refers frame node +
    total pwdHolds k.files node + k.outside node



variable [DecidableEq π]

/-! ## One entry changes -/

omit [Fintype π] [DecidableEq π] [DecidableEq ι] in
theorem users_zero (fits : file.Fits users owners freers) (status : file.status = .fdNone ∨ file.status = .fdInit) : users = 0 := by
  rcases status with status | status <;> simp only [File.Fits, status] at fits
  · exact fits.2.1
  · exact fits.2.1

omit [DecidableEq π] in
theorem Sound.destroyed (sound : Sound k frame) (q : π) (destroys : (frame q).destroys = some t) : Ends k t := by
  have sits := sound.sits q
  cases place : frame q with
  | closes ptr node rest | drops ptr rest =>
    cases rest with
    | destroy fds =>
      rw [place] at sits destroys
      cases destroys
      exact sits.1
    | _ =>
      rw [place] at destroys
      cases destroys
  | leaves other =>
    rw [place] at sits destroys
    cases destroys
    exact sits
  | _ =>
    rw [place] at destroys
    cases destroys

/-- No other process destroys the table that one is at work on. -/
theorem Sound.apart (sound : Sound k (Function.update frame p old))
    (mine : k.filesp p = some t ∨ old.destroys = some t) (q : π) (away : q ≠ p) : (frame q).destroys ≠ some t := by
  intro destroys
  have here : (Function.update frame p old q).destroys = some t := by rwa [Function.update_of_ne away]
  rcases mine with shared | mine
  · obtain ⟨files, found, count, -⟩ := sound.destroyed q here
    have sharers := sound.sharers t files found
    have least : shares (k.filesp p) t ≤ total shares k.filesp t := le_total p
    simp only [shares, shared, if_true] at least
    omega
  · exact away (sound.alone q p t here (by rwa [Function.update_self]))

/-- One process changes one entry, where it is, and what it has of inodes. -/
theorem Sound.changes (sound : Sound k (Function.update frame p old)) (found : k.file ptr = some file)
    (apart : ∀ q, q ≠ p → (frame q).destroys ≠ some ptr.1) (index : changed.fd = file.fd)
    (fits : ∀ users owners freers,
      file.Fits (users + old.users ptr) (owners + old.owns ptr) (freers + old.frees ptr) →
        changed.Fits (users + new.users ptr) (owners + new.owns ptr) (freers + new.frees ptr))
    (marks : ∀ other, other ≠ ptr →
      new.users other = old.users other ∧ new.owns other = old.owns other ∧ new.frees other = old.frees other)
    (same : changed.node = file.node ∨ file.status = .fdNone ∨ file.status = .fdInit)
    (sits : Sits (k.setFile ptr changed) p new) (destroys : new.destroys = old.destroys)
    (opens : ∀ node, (inodes node).openCount + (fileHolds (some file) node + old.opened node) =
      (k.inodes node).openCount + (fileHolds (some changed) node + new.opened node))
    (refs : ∀ node, (inodes node).refCount + (fileHolds (some file) node + old.refers node) =
      (k.inodes node).refCount + (fileHolds (some changed) node + new.refers node)) :
    Sound { k.setFile ptr changed with inodes := inodes } (Function.update frame p new) := by
  have listed := sound.listed
  simp only [total_update] at listed
  have at_ptr := listed ptr
  rw [found] at at_ptr
  constructor
  · intro other
    simp only [total_update]
    change Listed _ _ _ _ ((k.setFile ptr changed).file other)
    rw [file_setFile found]
    by_cases here : other = ptr
    · subst here
      rw [Function.update_self]
      exact ⟨index.trans at_ptr.1, fits _ _ _ at_ptr.2⟩
    · obtain ⟨users, owns, frees⟩ := marks other here
      rw [Function.update_of_ne here, users, owns, frees]
      exact listed other
  · intro t files here
    obtain ⟨before, here', count, -⟩ := files_setFile t files here
    exact count.trans (sound.sharers t before here')
  · intro q t shared
    exact (isSome_setFile t).trans (sound.there q t shared)
  · intro q
    by_cases here : q = p
    · subst here
      rw [Function.update_self]
      exact sits.congr rfl rfl
    · have before := sound.sits q
      rw [Function.update_of_ne here] at before ⊢
      refine (before.setFile found (fun uses => ?_) (apart q here)).congr rfl rfl
      rcases same with same | status
      · exact same
      · have nobody := users_zero at_ptr.2 status
        have least : (Function.update frame p old q).users ptr ≤ total Frame.users (Function.update frame p old) ptr :=
          le_total q
        rw [Function.update_of_ne here, total_update] at least
        omega
  · intro q r t first second
    have kept (q : π) : (Function.update frame p new q).destroys = (Function.update frame p old q).destroys := by
      by_cases here : q = p
      · subst here
        simpa only [Function.update_self] using destroys
      · simp only [Function.update_of_ne here]
    rw [kept] at first second
    exact sound.alone q r t first second
  · intro node
    have before := sound.opens node
    have files := total_file found changed node
    have change := opens node
    rw [total_update] at before ⊢
    change (inodes node).openCount = total fileHolds (k.setFile ptr changed).file node + _
    omega
  · intro node
    have before := sound.refs node
    have files := total_file found changed node
    have pwds := total_pwd_setFile k ptr changed node
    have change := refs node
    rw [total_update] at before ⊢
    change (inodes node).refCount = total fileHolds (k.setFile ptr changed).file node + _ +
      total pwdHolds (k.setFile ptr changed).files node + k.outside node
    omega

/-- One process changes where it is, and what it has of inodes. -/
theorem Sound.moves (sound : Sound k (Function.update frame p old)) (outside : ι → Nat)
    (marks : ∀ other, new.users other = old.users other ∧ new.owns other = old.owns other ∧ new.frees other = old.frees other)
    (sits : Sits k p new) (destroys : new.destroys = old.destroys)
    (opens : ∀ node, (inodes node).openCount + old.opened node = (k.inodes node).openCount + new.opened node)
    (refs : ∀ node, (inodes node).refCount + (old.refers node + k.outside node) =
      (k.inodes node).refCount + (new.refers node + outside node)) :
    Sound { k with inodes := inodes, outside := outside } (Function.update frame p new) := by
  constructor
  · intro other
    have before := sound.listed other
    obtain ⟨users, owns, frees⟩ := marks other
    simp only [total_update] at before ⊢
    rw [users, owns, frees]
    exact before
  · exact sound.sharers
  · exact sound.there
  · intro q
    by_cases here : q = p
    · subst here
      rw [Function.update_self]
      exact sits.congr rfl rfl
    · have before := sound.sits q
      rw [Function.update_of_ne here] at before ⊢
      exact before.congr rfl rfl
  · intro q r t first second
    have kept (q : π) : (Function.update frame p new q).destroys = (Function.update frame p old q).destroys := by
      by_cases here : q = p
      · subst here
        simpa only [Function.update_self] using destroys
      · simp only [Function.update_of_ne here]
    rw [kept] at first second
    exact sound.alone q r t first second
  · intro node
    have before := sound.opens node
    have change := opens node
    rw [total_update] at before ⊢
    change (inodes node).openCount = total fileHolds k.file node + _
    omega
  · intro node
    have before := sound.refs node
    have change := refs node
    rw [total_update] at before ⊢
    change (inodes node).refCount = total fileHolds k.file node + _ + total pwdHolds k.files node + outside node
    omega

/-! ## Where a process stands inside of a step -/

/-- All is well if the process is taken to be there. -/
def Stands (k : Kernel π τ ι) (p : π) (frame : Frame τ ι) : Prop := Sound k (Function.update k.frame p frame)

def Room (k : Kernel π τ ι) : Prop := ∀ node, (k.inodes node).refCount < maxInodeCount

/-- The step is over and nothing went wrong. -/
def Settles (result : Option (Kernel π τ ι)) : Prop := ∃ after, result = some after ∧ Sound after after.frame

theorem Stands.goTo (stands : Stands k p new) : Sound (k.goTo p new) (k.goTo p new).frame :=
  ⟨stands.listed, stands.sharers, stands.there, fun q => (stands.sits q).congr rfl rfl, stands.alone, stands.opens, stands.refs⟩

theorem Stands.leave (stands : Stands k p .user) (ret : Int) : Sound (k.leave p ret) (k.leave p ret).frame :=
  ⟨stands.listed, stands.sharers, stands.there, fun q => (stands.sits q).congr rfl rfl, stands.alone, stands.opens, stands.refs⟩

theorem Sound.stands (sound : Sound k k.frame) (here : k.frame p = old) : Stands k p old := by
  rw [Stands, ← here, Function.update_eq_self]
  exact sound

theorem Stands.check (stands : Stands k p old) (room : Room k) (node : ι) : inodeCheck (k.inodes node) := by
  have opens := stands.opens node
  have refs := stands.refs node
  have held : total Frame.opened (Function.update k.frame p old) node ≤ total Frame.refers (Function.update k.frame p old) node := by
    apply Finset.sum_le_sum
    intro q _
    cases Function.update k.frame p old q <;> simp [Frame.opened, Frame.refers]
  have small := room node
  refine ⟨by omega, small, by omega⟩

theorem Stands.listed_at (stands : Stands k p old) (found : k.file ptr = some file) :
    ∃ users owners freers, file.fd = ptr.2 ∧
      file.Fits (users + old.users ptr) (owners + old.owns ptr) (freers + old.frees ptr) := by
  have at_ptr := stands.listed ptr
  simp only [total_update, found] at at_ptr
  exact ⟨_, _, _, at_ptr⟩

/-- The table of a process is there. -/
theorem Stands.table (stands : Stands k p old) (shared : k.filesp p = some t) :
    ∃ files, k.files t = some files ∧ 0 < files.filesCount := by
  obtain ⟨files, found⟩ := Option.isSome_iff_exists.mp (stands.there p t shared)
  have count := stands.sharers t files found
  have least : shares (k.filesp p) t ≤ total shares k.filesp t := le_total p
  simp only [shares, shared, if_true] at least
  exact ⟨files, found, by omega⟩

theorem Stands.entry (stands : Stands k p old) (ptr : τ × Fd) (shared : k.filesp p = some ptr.1) :
    ∃ file, k.file ptr = some file := by
  obtain ⟨files, found, -⟩ := stands.table shared
  exact ⟨files.fdArray ptr.2, by simp [Kernel.file, found]⟩

/-- A call that has nothing. -/
structure Frame.Free (frame : Frame τ ι) : Prop where
  users : ∀ ptr, frame.users ptr = 0
  owns : ∀ ptr, frame.owns ptr = 0
  frees : ∀ ptr, frame.frees ptr = 0
  opened : ∀ node, frame.opened node = 0
  refers : ∀ node, frame.refers node = 0

omit [Fintype π] [Fintype τ] [DecidableEq π] in
theorem free_user : (Frame.user : Frame τ ι).Free :=
  ⟨fun _ => rfl, fun _ => rfl, fun _ => rfl, fun _ => rfl, fun _ => rfl⟩

omit [Fintype π] [Fintype τ] [DecidableEq π] in
theorem free_leaves (t : τ) : (Frame.leaves t : Frame τ ι).Free :=
  ⟨fun _ => rfl, fun _ => rfl, fun _ => rfl, fun _ => rfl, fun _ => rfl⟩

/-! ## Entries given out and given up -/

theorem Stands.found (stands : Stands k p .user) (shared : k.filesp p = some ptr.1) (flags : Nat)
    (there : k.file ptr = some file) (free : file.status = .fdNone) :
    FileTable.found k ptr = some (k.setFile ptr { file with status := .fdInit, node := none }) ∧
      Stands (k.setFile ptr { file with status := .fdInit, node := none }) p (.opens ptr flags) := by
  obtain ⟨users, owners, freers, -, fits⟩ := stands.listed_at there
  have zero : file.openCount = 0 := by
    simp only [File.Fits, free] at fits
    exact fits.1
  refine ⟨by simp [FileTable.found, there, zero], ?_⟩
  refine stands.changes there (stands.apart (.inl shared)) rfl (fun users owners freers fits => ?_)
    (fun other apart => ?_) (.inr (.inl free)) shared rfl (fun node => ?_) (fun node => ?_)
  · simp only [File.Fits, free, Frame.users, Frame.owns, Frame.frees, if_true] at fits ⊢
    omega
  · simp [Frame.users, Frame.owns, Frame.frees, Ne.symm apart]
  · simp [fileHolds, File.Live, free, Frame.opened]
  · simp [fileHolds, File.Live, free, Frame.refers]

/-- A call that owns an entry, and has nothing else. -/
structure Frame.Owner (frame : Frame τ ι) (ptr : τ × Fd) : Prop where
  users : ∀ other, frame.users other = 0
  owns : ∀ other, frame.owns other = if ptr = other then 1 else 0
  frees : ∀ other, frame.frees other = 0
  opened : ∀ node, frame.opened node = 0
  refers : ∀ node, frame.refers node = 0
  destroys : frame.destroys = none
  shared : ∀ (k : Kernel π τ ι) p, Sits k p frame → k.filesp p = some ptr.1

theorem Stands.initial (stands : Stands k p old) (owns : old.owns ptr = 1) (found : k.file ptr = some file) :
    file.status = .fdInit ∧ file.openCount = 0 := by
  obtain ⟨users, owners, freers, -, fits⟩ := stands.listed_at found
  cases status : file.status <;> simp only [File.Fits, status] at fits <;> first | exact ⟨rfl, fits.1⟩ | omega

theorem Stands.given_back (stands : Stands k p old) (owner : old.Owner (π := π) ptr) :
    ∃ after, fdArrayFree k ptr = some (after, none) ∧ Stands after p .user := by
  have shared : k.filesp p = some ptr.1 := owner.shared k p (by
    have sits := stands.sits p
    rwa [Function.update_self] at sits)
  obtain ⟨file, found⟩ := stands.entry ptr shared
  obtain ⟨status, zero⟩ := stands.initial (by simp [owner.owns]) found
  refine ⟨k.setFile ptr { file with status := .fdNone }, by simp [fdArrayFree, found, status, zero], ?_⟩
  refine stands.changes found (stands.apart (.inl shared)) rfl (fun users owners freers fits => ?_)
    (fun other apart => ?_) (.inl rfl) trivial owner.destroys.symm (fun node => ?_) (fun node => ?_)
  · simp only [File.Fits, status, owner.users, owner.owns, owner.frees, if_true] at fits
    simp only [File.Fits, Frame.users, Frame.owns, Frame.frees]
    omega
  · rw [owner.users, owner.owns, owner.frees, if_neg (Ne.symm apart)]
    exact ⟨rfl, rfl, rfl⟩
  · rw [owner.opened]
    simp [fileHolds, File.Live, status, Frame.opened]
  · rw [owner.refers]
    simp [fileHolds, File.Live, status, Frame.refers]

/-- The file is open, and takes over what the call has of the inode. -/
theorem Stands.opened (stands : Stands k p (.truncates ptr flags node)) (found : k.file ptr = some file)
    (readable writable : Bool) (pos : Int) :
    ∃ after, fdArrayOpen (k.setFile ptr { file with pos, node := some node, readable, writable }) ptr = some after ∧
      Stands after p .user := by
  have shared : k.filesp p = some ptr.1 := by
    have sits := stands.sits p
    rwa [Function.update_self] at sits
  obtain ⟨status, zero⟩ := stands.initial (by simp [Frame.owns]) found
  have again : (k.setFile ptr { file with pos, node := some node, readable, writable }).file ptr =
      some { file with pos, node := some node, readable, writable } := by
    rw [file_setFile found, Function.update_self]
  refine ⟨k.setFile ptr { file with
    pos, node := some node, readable, writable, status := .fdOpened, openCount := file.openCount + 1 },
    by rw [fdArrayOpen_eq again status rfl, setFile_setFile], ?_⟩
  refine stands.changes found (stands.apart (.inl shared)) rfl (fun users owners freers fits => ?_)
    (fun other apart => ?_) (.inr (.inr status)) trivial rfl (fun inode => ?_) (fun inode => ?_)
  · simp only [File.Fits, status, Frame.users, Frame.owns, Frame.frees, if_true] at fits
    simp only [File.Fits, Frame.users, Frame.owns, Frame.frees, Option.isSome_some, and_true]
    omega
  · simp [Frame.users, Frame.owns, Frame.frees, Ne.symm apart]
  · simp [fileHolds, File.Live, status, Frame.opened]
  · simp [fileHolds, File.Live, status, Frame.refers]

/-! ## References to inodes -/

theorem Stands.opened_le (stands : Stands k p old) (node : ι) :
    (k.inodes node).openCount + old.refers node + k.outside node + total pwdHolds k.files node ≤
      (k.inodes node).refCount + old.opened node := by
  have opens := stands.opens node
  have refs := stands.refs node
  rw [total_update] at opens refs
  have held : others Frame.opened k.frame p node ≤ others Frame.refers k.frame p node := by
    apply Finset.sum_le_sum
    intro q _
    cases k.frame q <;> simp [Frame.opened, Frame.refers]
  omega

/-- A call gives up the last thing it has of an inode. -/
theorem Stands.refDec (stands : Stands k p old) (new : Frame τ ι)
    (holds : ∀ other, old.refers other = if node = other then 1 else 0)
    (none_open : ∀ other, old.opened other = 0)
    (marks : ∀ other, new.users other = old.users other ∧ new.owns other = old.owns other ∧ new.frees other = old.frees other)
    (sits : Sits k p new) (destroys : new.destroys = old.destroys) (refers : ∀ other, new.refers other = 0)
    (opened : ∀ other, new.opened other = 0) :
    ∃ after, vopRefDec k node = some after ∧ Stands after p new := by
  have below := stands.opened_le node
  rw [holds, none_open, if_pos rfl] at below
  refine ⟨_, vopRefDec_eq (by omega), ?_⟩
  refine stands.moves k.outside marks sits destroys (fun other => ?_) (fun other => ?_)
  · rw [none_open, opened]
    by_cases here : other = node
    · subst here
      simp
    · simp [here]
  · rw [holds, refers]
    by_cases here : other = node
    · subst here
      simp
      omega
    · simp [here, Ne.symm here]

theorem Stands.open_pos (stands : Stands k p old) (found : k.file ptr = some file) (live : file.Live)
    (node : file.node = some inode) : 0 < (k.inodes inode).openCount := by
  have opens := stands.opens inode
  have least : fileHolds (k.file ptr) inode ≤ total fileHolds k.file inode := le_total ptr
  rw [found, fileHolds_live live, if_pos node] at least
  omega

omit [DecidableEq ι] [Fintype π] [Fintype τ] [DecidableEq π] in
theorem Rests.setFile (rests : Rests k p ptr rest) (found : k.file ptr = some file) : Rests (k.setFile ptr changed) p ptr rest := by
  cases rest with
  | destroy fds =>
    refine ⟨rests.1.setFile, fun fd outside => ?_⟩
    have away : (ptr.1, fd) ≠ ptr := fun same => outside (List.mem_cons.mpr (.inl (congrArg Prod.snd same)))
    rw [file_setFile found, Function.update_of_ne away]
    exact rests.2 fd outside
  | _ => exact rests

/-- The last user of a file that is closed goes into `vfs_close`. -/
theorem Stands.last (stands : Stands k p old) (rest : Rest) (room : Room k) (found : k.file ptr = some file) (live : file.Live)
    (there : file.node = some node) (apart : ∀ q, q ≠ p → (k.frame q).destroys ≠ some ptr.1)
    (alone : ∀ users owners freers, file.Fits (users + old.users ptr) (owners + old.owns ptr) (freers + old.frees ptr) →
      users = 0 ∧ owners = 0 ∧ freers = 0)
    (marks : ∀ other, other ≠ ptr → old.users other = 0 ∧ old.owns other = 0 ∧ old.frees other = 0)
    (none_open : ∀ other, old.opened other = 0) (none_held : ∀ other, old.refers other = 0)
    (rests : Rests k p ptr rest) (destroys : (Frame.closes ptr node rest).destroys = old.destroys) :
    ∃ after, fdArrayFree (k.setFile ptr { file with status := .fdClosed, openCount := 0 }) ptr = some (after, some node) ∧
      Stands after p (.closes ptr node rest) := by
  have again : (k.setFile ptr { file with status := .fdClosed, openCount := 0 }).file ptr =
      some { file with status := .fdClosed, openCount := 0 } := by
    rw [file_setFile found, Function.update_self]
  have positive := stands.open_pos found live there
  have dec := vopOpenDec_eq (k := k.setFile ptr { file with status := .fdClosed, openCount := 0 }) positive (stands.check room node)
  have dead : ¬ ({ file with status := .fdClosed, openCount := 0 } : File ι).Live := by simp [File.Live]
  refine ⟨_, by rw [fdArrayFree_closed again rfl rfl there, dec, Option.map_some], ?_⟩
  refine stands.changes found apart rfl (fun users owners freers fits => ?_) (fun other away => ?_) (.inl rfl)
    (rests.setFile found) destroys (fun other => ?_) (fun other => ?_)
  · obtain ⟨rfl, rfl, rfl⟩ := alone users owners freers fits
    simp [File.Fits, Frame.users, Frame.owns, Frame.frees, there]
  · obtain ⟨users, owns, frees⟩ := marks other away
    rw [users, owns, frees]
    simp [Frame.users, Frame.owns, Frame.frees, Ne.symm away]
  · rw [none_open, fileHolds_live live, fileHolds_dead dead, there]
    by_cases here : other = node
    · subst here
      simp [Frame.opened]
      omega
    · simp [here, Ne.symm here, Frame.opened]
  · rw [none_held, fileHolds_live live, fileHolds_dead dead, there]
    by_cases here : other = node
    · subst here
      simp [Frame.refers]
    · simp [here, Ne.symm here, Frame.refers]

/-- What is left of a step that gave a file up. -/
def Given (k : Kernel π τ ι) (p : π) (ptr : τ × Fd) (rest : Rest) (back : Frame τ ι) : Kernel π τ ι × Option ι → Prop
  | (after, some node) => Stands after p (.closes ptr node rest)
  | (after, none) => Stands after p back ∧ after.filesp = k.filesp ∧ after.inodes = k.inodes

theorem Stands.closed (stands : Stands k p old) (rest : Rest) (room : Room k) (free : old.Free) (found : k.file ptr = some file)
    (status : file.status = .fdOpened) (apart : ∀ q, q ≠ p → (k.frame q).destroys ≠ some ptr.1)
    (stays : ∀ changed, Sits (k.setFile ptr changed) p old) (rests : Rests k p ptr rest)
    (destroys : ∀ node : ι, (Frame.closes ptr node rest).destroys = old.destroys) :
    ∃ result, fdArrayClose k ptr = some result ∧ Given k p ptr rest old result ∧ (result.2 = none → 1 < file.openCount) := by
  obtain ⟨users, owners, freers, -, fits⟩ := stands.listed_at found
  simp only [File.Fits, status, free.users, free.owns, free.frees, Nat.add_zero] at fits
  obtain ⟨count, -, -, there⟩ := fits
  have positive : 0 < file.openCount := by omega
  by_cases last : file.openCount - 1 = 0
  · obtain ⟨node, there⟩ := Option.isSome_iff_exists.mp there
    obtain ⟨after, freed, stands'⟩ := stands.last rest room found (.inl status) there apart
      (fun users owners freers fits => by
        simp only [File.Fits, status, free.users, free.owns, free.frees] at fits
        omega)
      (fun other _ => ⟨free.users other, free.owns other, free.frees other⟩) free.opened free.refers rests (destroys node)
    have zero : file.openCount = 1 := by omega
    exact ⟨(after, some node), by simp [fdArrayClose, found, status, zero, freed], stands', nofun⟩
  · refine ⟨(k.setFile ptr { file with status := .fdClosed, openCount := file.openCount - 1 }, none),
      by simp [fdArrayClose, found, status, positive, last], ⟨?_, rfl, rfl⟩, fun _ => by omega⟩
    have live : ({ file with status := .fdClosed, openCount := file.openCount - 1 } : File ι).Live :=
      .inr ⟨rfl, Nat.pos_of_ne_zero last⟩
    refine stands.changes found apart rfl (fun users owners freers fits => ?_) (fun _ _ => ⟨rfl, rfl, rfl⟩) (.inl rfl)
      (stays _) rfl (fun other => ?_) (fun other => ?_)
    · simp only [File.Fits, status, free.users, free.owns, free.frees] at fits ⊢
      rw [if_neg (by omega)]
      exact ⟨by omega, by omega, by omega, there⟩
    · rw [fileHolds_live (.inl status), fileHolds_live live]
    · rw [fileHolds_live (.inl status), fileHolds_live live]

theorem Stands.released {use : Use} (stands : Stands k p (.uses ptr node use)) (room : Room k) (ret : Int) :
    ∃ result, fdArrayRelease k ptr = some result ∧ Given k p ptr (.done ret) .user result := by
  have sits := stands.sits p
  rw [Function.update_self] at sits
  obtain ⟨shared, file, found, there⟩ := sits
  have apart := stands.apart (.inl shared)
  obtain ⟨users, owners, freers, -, fits⟩ := stands.listed_at found
  have busy : (Frame.uses ptr node use : Frame τ ι).users ptr = 1 := by simp [Frame.users]
  have held : file.status = .fdOpened ∧ 1 < file.openCount ∨ file.status = .fdClosed ∧ 0 < file.openCount := by
    cases status : file.status <;> simp only [File.Fits, status, busy] at fits
    · omega
    · omega
    · exact .inl ⟨rfl, by omega⟩
    · exact .inr ⟨rfl, by omega⟩
  have live : file.Live := held.imp And.left id
  have positive : 0 < file.openCount := by
    rcases held with ⟨-, held⟩ | ⟨-, held⟩ <;> omega
  have open_or_closed : file.status = .fdOpened ∨ file.status = .fdClosed := held.imp And.left And.left
  by_cases last : file.openCount - 1 = 0
  · have status : file.status = .fdClosed := by
      rcases held with ⟨-, held⟩ | ⟨status, -⟩
      · omega
      · exact status
    obtain ⟨after, freed, stands'⟩ := stands.last (.done ret) room found live there apart
      (fun users owners freers fits => by
        simp only [File.Fits, status, busy, Frame.owns, Frame.frees] at fits
        have other_users : users = 0 := by omega
        rw [if_neg (by omega)] at fits
        omega)
      (fun other away => by simp [Frame.users, Frame.owns, Frame.frees, Ne.symm away]) (fun _ => rfl) (fun _ => rfl) shared rfl
    have same : ({ file with openCount := 0 } : File ι) = { file with status := .fdClosed, openCount := 0 } := by
      simp [status]
    have zero : file.openCount = 1 := by omega
    refine ⟨(after, some node), ?_, stands'⟩
    simp only [fdArrayRelease, found, Option.bind_eq_bind, Option.bind_some, guard, open_or_closed, positive, if_true, last, same]
    exact freed
  · refine ⟨(k.setFile ptr { file with openCount := file.openCount - 1 }, none),
      by simp [fdArrayRelease, found, open_or_closed, positive, last], ?_, rfl, rfl⟩
    have live' : ({ file with openCount := file.openCount - 1 } : File ι).Live :=
      open_or_closed.imp id fun status => ⟨status, Nat.pos_of_ne_zero last⟩
    refine stands.changes found apart rfl (fun users owners freers fits => ?_) (fun other away => ?_) (.inl rfl)
      trivial rfl (fun other => ?_) (fun other => ?_)
    · rcases open_or_closed with status | status
      · simp only [File.Fits, status, busy] at fits
        simp only [File.Fits, status, Frame.users]
        exact ⟨by omega, fits.2⟩
      · simp only [File.Fits, status, busy] at fits
        rw [if_neg (by omega)] at fits
        have more : users + (Frame.user : Frame τ ι).users ptr = users := rfl
        simp only [File.Fits, status, more]
        rw [if_neg (by omega)]
        exact ⟨by omega, fits.2⟩
    · simp [Frame.users, Frame.owns, Frame.frees, Ne.symm away]
    · rw [fileHolds_live live, fileHolds_live live']
      rfl
    · rw [fileHolds_live live, fileHolds_live live']
      rfl

end Ucore.FileTable
