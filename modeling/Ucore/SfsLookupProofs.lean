import Ucore.SfsNamefileProofs

/-! Looking a name up in a directory gives the inode of the first entry with the name
one reference more. The directory and every other inode keep theirs, in memory or not,
also where the entry is for the directory itself. -/
namespace Ucore.Sfs
open Call

variable {vol after : Volume} {dir ino : Nat} {inode old : Inode} {name : List UInt8}

theorem held_elsewhere {other : Option Inode} (apart : ino ≠ dir) : held (vol.set dir other) ino = held vol ino := by
  have same : (vol.set dir other).inodes ino = vol.inodes ino := Function.update_of_ne apart _ _
  rw [held, same]
  rfl

theorem held_here : held (vol.set dir (some inode)) dir = some { inode with refCount := inode.refCount + 1 } := by
  have here : (vol.set dir (some inode)).inodes dir = some inode := Function.update_self _ _ _
  rw [held, here]

/-- A reference that is not the last one. -/
theorem inodeRefDec_keeps (here : vol.inodes dir = some { inode with refCount := inode.refCount + 1 }) (others : 0 < inode.refCount)
    {bad : Int → Volume → Prop} : Settles (inodeRefDec dir) (fun _ final => final = vol.set dir (some inode)) bad False vol := by
  refine .bind (.of_run (congrArg _ here) (.bind (.assert (fun _ => .bind (.modify (.onlyIf (fun last => ?_) fun _ => rfl))) ?_)))
  · have last : inode.refCount + 1 - 1 = 0 := of_decide_eq_true last
    omega
  · intro none_left
    exact absurd (Nat.succ_pos _) (of_decide_eq_false none_left)

theorem held_referenced (retained : held vol dir = some inode) : 0 < inode.refCount := by
  unfold held at retained
  split at retained
  · cases retained
    exact Nat.succ_pos _
  · obtain ⟨⟨din, nlinks⟩, -, rfl⟩ := Option.map_eq_some_iff.mp retained
    exact Nat.one_pos

/-- Behind the load of another inode, or of the same one, a reference to a directory is given back. -/
theorem giveBack (readable : Readable vol dir inode)
    (waited : Waited ((vol.set dir (some inode)).set ino (held (vol.set dir (some inode)) ino)) after) {bad : Int → Volume → Prop} :
    Settles (inodeRefDec dir) (fun _ final => Waited (vol.set ino (held vol ino)) final) bad False after := by
  by_cases same : ino = dir
  · subst ino
    rw [held_here] at waited
    have here : after.inodes dir = some { inode with refCount := inode.refCount + 1 } := by
      rw [waited.inodes]
      exact Function.update_self _ _ _
    refine (inodeRefDec_keeps here (held_referenced readable.retained)).weaken ?_ fun _ _ held => held
    rintro ⟨⟩ _ rfl
    have released := waited.set dir (some inode)
    simp only [Volume.set, Function.update_idem] at released
    rw [readable.retained]
    exact released
  · rw [held_elsewhere same] at waited
    have here : after.inodes dir = some inode := by
      rw [waited.inodes]
      exact (Function.update_of_ne (Ne.symm same) _ _).trans (Function.update_self _ _ _)
    refine (inodeRefDec_settles readable here).weaken ?_ fun _ _ held => held
    rintro ⟨⟩ _ rfl
    have released := waited.set dir (vol.inodes dir)
    have back : ((vol.set dir (some inode)).set ino (held vol ino)).set dir (vol.inodes dir) = vol.set ino (held vol ino) := by
      simp only [Volume.set]
      rw [Function.update_comm same, Function.update_idem, Function.update_eq_self]
    rwa [back] at released

theorem giveBack_alone (readable : Readable vol dir inode) (waited : Waited (vol.set dir (some inode)) after) {bad : Int → Volume → Prop} :
    Settles (inodeRefDec dir) (fun _ final => Waited vol final) bad False after := by
  have here : after.inodes dir = some inode := by
    rw [waited.inodes]
    exact Function.update_self _ _ _
  refine (inodeRefDec_settles readable here).weaken ?_ fun _ _ held => held
  rintro ⟨⟩ _ rfl
  have released := waited.set dir (vol.inodes dir)
  simpa only [Volume.set, Function.update_idem, Function.update_eq_self] using released

/-- The entry that a name in a directory is looked up to. -/
def entryNamed (vol : Volume) (dir : Nat) (name : List UInt8) : Option Dirent :=
  (entriesOf vol dir).find? fun entry => entry.name = name

/-- A directory to look names up in: there is something to load behind each of its entries. -/
structure Directory (vol : Volume) (dir : Nat) (inode : Inode) : Prop where
  readable : Readable vol dir inode
  opened : inode.openCount ≤ inode.refCount
  few : inode.refCount < maxInodeCount
  loadable : ∀ entry ∈ entriesOf vol dir, ∃ next, Loadable vol entry.ino next

theorem Loadable.elsewhere {next : Inode} (loadable : Loadable vol ino next) (apart : ino ≠ dir) (other : Option Inode) :
    Loadable (vol.set dir other) ino next := by
  have same : (vol.set dir other).inodes ino = vol.inodes ino := Function.update_of_ne apart _ _
  refine ⟨?_, loadable.type, loadable.links, loadable.inuse, loadable.mounted, ?_⟩
  · rw [held_elsewhere apart]
    exact loadable.retained
  · rw [same]
    exact loadable.pinned

/-- What can be loaded can still be with a directory held. -/
theorem Loadable.held {next : Inode} (loadable : Loadable vol ino next) (readable : Readable vol dir inode) :
    ∃ next, Loadable (vol.set dir (some inode)) ino next := by
  by_cases same : ino = dir
  · subst ino
    exact ⟨_, readable.again.loadable⟩
  · exact ⟨next, loadable.elsewhere same _⟩

theorem Waited.held (waited : Waited vol after) (ino : Nat) : held after ino = Sfs.held vol ino := by
  obtain ⟨fs, n, ⟨k, rfl⟩, rfl⟩ := waited
  rfl

theorem Directory.check (directory : Directory vol dir inode) (loaded : after.inodes dir = some inode) {bad : Int → Volume → Prop} :
    Settles (vopCheck dir dirOnly) (fun _ final => final = after) bad False after := by
  refine .bind (.of_run (congrArg _ loaded) (.bind (.assert (fun _ => .bind (.assert (fun _ => .assert (fun _ => rfl) ?_) ?_)) ?_)))
  · have opened := directory.opened
    have few := directory.few
    simp only [Bool.and_eq_false_iff, decide_eq_false_iff_not]
    omega
  · simp [directory.opened]
  · simp [dirOnly, directory.readable.type]

/-- In a directory that is held, a name leads to its first entry with that name. -/
theorem sfsLookup_looks (directory : Directory vol dir inode) (waited : Waited (vol.set dir (some inode)) after) (some_name : name ≠ [])
    (relative : name.head? ≠ some slash) :
    Settles (sfsLookup dir name)
      (fun ino final => name.length ≤ maxFnameLen ∧ (∃ entry, entryNamed vol dir name = some entry ∧ ino = entry.ino) ∧
        Waited ((vol.set dir (some inode)).set ino (held (vol.set dir (some inode)) ino)) final)
      (fun ret final => name.length ≤ maxFnameLen ∧ (entryNamed vol dir name = none ∧ ret = -eNoEnt ∨ Refused vol ret) ∧
        Waited (vol.set dir (some inode)) final)
      (maxFnameLen < name.length) after := by
  let twice : Inode := { inode with refCount := inode.refCount + 1 }
  have loaded : after.inodes dir = some inode := by
    rw [waited.inodes]
    exact Function.update_self _ _ _
  have readable := waited.readable directory.readable.again
  refine .bind (((directory.check loaded).weaken ?_ fun _ _ failed => failed).halts False.elim)
  rintro ⟨⟩ entered same
  subst entered
  have proper : (decide (name ≠ []) && decide (name.head? ≠ some slash)) = true := by simp [some_name, relative]
  refine .bind (.assert (fun _ => .bind (.bind (.of_run (congrArg _ loaded) (.modify ?_)))) fun improper => ?_)
  swap
  · cases proper.symm.trans improper
  have entered : Waited ((vol.set dir (some inode)).set dir (some twice)) (after.set dir (some twice)) := waited.set dir _
  have held_twice : (after.set dir (some twice)).inodes dir = some twice := Function.update_self _ _ _
  refine .bind (.of_run (congrArg _ held_twice) ?_)
  rw [if_neg (by simp [twice, directory.readable.type])]
  have same : live ((after.set dir (some twice)).node twice) = entriesOf vol dir := by
    rw [entriesOf_readable directory.readable]
    exact entered.live twice
  have looks := sfsLookupOnce_looks name held_twice directory.readable.type (entered.slots directory.readable.again.slots)
    fun entry found => by
      rw [same] at found
      obtain ⟨next, loadable⟩ := directory.loadable entry (List.mem_of_find?_eq_some found)
      obtain ⟨next, loadable⟩ := loadable.held directory.readable
      obtain ⟨next, loadable⟩ := loadable.held directory.readable.again
      exact ⟨next, entered.loadable loadable⟩
  rw [same] at looks
  refine .bind (.attempt (looks.weaken ?_ ?_))
  · rintro ino final ⟨short, found, passed⟩
    rw [entered.held] at passed
    have twice_held := (entered.set ino _).trans passed
    refine .bind (((giveBack directory.readable.again twice_held).weaken ?_ fun _ _ failed => failed).halts False.elim)
    rintro ⟨⟩ final waited
    exact .pure ⟨short, found, waited⟩
  · rintro ret final ⟨short, failed, passed⟩
    have twice_held := entered.trans passed
    refine .bind (((giveBack_alone directory.readable.again twice_held).weaken ?_ fun _ _ failed => failed).halts False.elim)
    rintro ⟨⟩ final waited
    exact .fail ⟨short, failed.imp_right entered.refused, waited⟩

/-- The root is loaded or the system stops. -/
theorem sfsGetRoot_loads (loadable : Loadable vol blknRoot inode) {bad : Int → Volume → Prop} :
    Settles sfsGetRoot (fun ino final => ino = blknRoot ∧ Waited (vol.set blknRoot (some inode)) final) bad
      (vol.inodes blknRoot = none ∧ ∃ ret, Refused vol ret) vol := by
  refine .bind (.attempt ((loadable.load.weaken ?_ ?_).halts False.elim))
  · rintro ⟨⟩ final waited
    exact .pure ⟨rfl, waited⟩
  · rintro ret final ⟨absent, refused, -⟩
    exact .stop ⟨absent, ret, refused⟩

/-! ## The tree while one of its directories is held -/

theorem Tree.reading {dirs : Nat → Prop} {root : Nat} {parent : Nat → Nat} {nameOf : Nat → List UInt8} {buf : Nat → UInt8}
    (tree : Tree vol dirs root parent nameOf) (readable : Readable vol dir inode) :
    Tree (vol.reading dir inode buf) dirs root parent nameOf := by
  have again (other : Nat) (member : dirs other) :
      ∃ next, Readable (vol.reading dir inode buf) other next ∧ live ((vol.reading dir inode buf).node next) = entriesOf vol other := by
    by_cases same : other = dir
    · subst other
      refine ⟨_, reading_again readable, ?_⟩
      rw [entriesOf_readable readable]
      rfl
    · obtain ⟨next, there⟩ := tree.readable other member
      refine ⟨next, reading_readable there same, ?_⟩
      rw [entriesOf_readable there]
      rfl
  have entries (other : Nat) (member : dirs other) : entriesOf (vol.reading dir inode buf) other = entriesOf vol other := by
    obtain ⟨next, there, same⟩ := again other member
    rw [entriesOf_readable there, same]
  refine ⟨fun other member => ?_, tree.up, tree.top, fun other member => ?_, fun other member below => ?_, tree.rooted⟩
  · obtain ⟨next, there, -⟩ := again other member
    exact ⟨next, there⟩
  · rw [entries other member]
    exact tree.climbs other member
  · rw [entries _ (tree.up other member)]
    exact tree.named other member below

/-- A name ends in front of the first zero. -/
theorem direntOf_zero (block : Block) : ∀ c ∈ (direntOf block).name, c ≠ 0 := by
  intro c member
  simpa using List.mem_takeWhile_imp member

theorem entriesOf_zero {entry : Dirent} (member : entry ∈ entriesOf vol dir) : ∀ c ∈ entry.name, c ≠ 0 := by
  unfold entriesOf at member
  cases loaded : held vol dir with
  | none =>
    rw [loaded] at member
    cases member
  | some inode =>
    rw [loaded, Option.elim_some, live, liveFrom] at member
    obtain ⟨slot, -, rfl⟩ := List.mem_map.mp (List.mem_of_mem_filter member)
    exact direntOf_zero _

end Ucore.Sfs
