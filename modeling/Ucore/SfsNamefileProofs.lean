import Ucore.SfsDirectoryProofs
import Ucore.SfsNamefile

/-! The path of a directory comes out whole, for every directory below the root and
every buffer that it fits in with its zero. A buffer of two bytes has room for the
path of the root, but is turned down before the loop. -/
namespace Ucore.Sfs
open Call

/-! ## The buffer -/

section
variable {buf buf' : Nat → UInt8} {pos i : Nat} {bytes rest : List UInt8}

/-- These bytes are in the buffer. -/
def Stored (buf : Nat → UInt8) (pos : Nat) (bytes : List UInt8) : Prop :=
  ∀ i (inside : i < bytes.length), buf (pos + i) = bytes[i]

theorem stored_inside : Stored (stored buf pos bytes) pos bytes := by
  intro i inside
  rw [stored, if_pos (Nat.le_add_right _ _), Nat.add_sub_cancel_left, List.getD_eq_getElem _ _ inside]

theorem stored_outside (outside : i < pos ∨ pos + bytes.length ≤ i) : stored buf pos bytes i = buf i := by
  unfold stored
  split
  · apply List.getD_eq_default
    omega
  · rfl

theorem moved_inside {dst : Nat} (is_stored : Stored buf pos bytes) : Stored (moved buf dst pos bytes.length) dst bytes := by
  intro i inside
  rw [moved, if_pos ⟨Nat.le_add_right _ _, Nat.add_lt_add_left inside dst⟩, Nat.add_sub_cancel_left]
  exact is_stored i inside

theorem moved_outside {dst src n : Nat} (outside : i < dst ∨ dst + n ≤ i) : moved buf dst src n i = buf i := by
  rw [moved, if_neg]
  omega

theorem Stored.congr (is_stored : Stored buf pos bytes) (same : ∀ i, pos ≤ i → i < pos + bytes.length → buf' i = buf i) :
    Stored buf' pos bytes := by
  intro i inside
  rw [same (pos + i) (Nat.le_add_right _ _) (Nat.add_lt_add_left inside pos)]
  exact is_stored i inside

theorem Stored.append (first : Stored buf pos bytes) (second : Stored buf (pos + bytes.length) rest) :
    Stored buf pos (bytes ++ rest) := by
  intro i inside
  rw [List.getElem_append]
  split
  · rename_i before
    exact first i before
  · rename_i behind
    rw [List.length_append] at inside
    have there := second (i - bytes.length) (by omega)
    rwa [Nat.add_assoc, Nat.add_sub_cancel' (Nat.le_of_not_lt behind)] at there

end

/-! ## Searches -/

variable {node : Node} {vol after : Volume} {dir ino slot more : Nat} {inode next : Inode} {name : List UInt8} {entry : Dirent}

/-- What was found, or that there is no entry. -/
def orNoEnt {α : Type} (found : Option α) : Except Int α := found.elim (.error (-eNoEnt)) .ok

theorem direntSearch_yields (slots : Slots node) (type : node.din.type = .dir) (inside : slot + more = node.din.blocks)
    (name : List UInt8) : Yields (direntSearch name slot more) node
      (orNoEnt (((liveFrom node slot more).find? fun entry => entry.name = name).map (·.ino))) := by
  induction more generalizing node slot with
  | zero => exact .fail
  | succ more ih =>
    rw [liveFrom_succ]
    refine (direntRead_yields slots type (by omega)).bind fun fs later => ?_
    have rest : Yields (direntSearch name (slot + 1) more) { node with fs := fs }
        (orNoEnt (((liveFrom node (slot + 1) more).find? fun entry => entry.name = name).map (·.ino))) := by
      have again := ih (slots.later later) type (by change slot + 1 + more = node.din.blocks; omega)
      obtain ⟨n, rfl⟩ := later
      exact again
    by_cases used : (entryAt node slot).ino = 0
    · rw [if_neg (by simp [used]), if_neg (not_not_intro used)]
      exact rest
    · rw [if_pos used]
      by_cases same : (entryAt node slot).name = name
      · rw [if_pos (by simp [used, same]), List.find?_cons_of_pos (by simp [same])]
        exact .pure
      · rw [if_neg (by simp [same]), List.find?_cons_of_neg (by simp [same])]
        exact rest

theorem direntFindino_yields (slots : Slots node) (type : node.din.type = .dir) (inside : slot + more = node.din.blocks)
    (nonzero : ino ≠ 0) : Yields (direntFindino ino slot more) node
      (orNoEnt ((liveFrom node slot more).find? fun entry => entry.ino = ino)) := by
  induction more generalizing node slot with
  | zero => exact .fail
  | succ more ih =>
    rw [liveFrom_succ]
    refine (direntRead_yields slots type (by omega)).bind fun fs later => ?_
    have rest : Yields (direntFindino ino (slot + 1) more) { node with fs := fs }
        (orNoEnt ((liveFrom node (slot + 1) more).find? fun entry => entry.ino = ino)) := by
      have again := ih (slots.later later) type (by change slot + 1 + more = node.din.blocks; omega)
      obtain ⟨n, rfl⟩ := later
      exact again
    by_cases same : (entryAt node slot).ino = ino
    · rw [if_pos same, if_pos (by rwa [same]), List.find?_cons_of_pos (by simp [same])]
      exact .pure
    · rw [if_neg same]
      split
      · rw [List.find?_cons_of_neg (by simp [same])]
        exact rest
      · exact rest

/-! ## References -/

/-- An inode with one reference more, which loads it where it is not in memory. -/
def held (vol : Volume) (ino : Nat) : Option Inode :=
  match vol.inodes ino with
  | some inode => some { inode with refCount := inode.refCount + 1 }
  | none => (dinOf (vol.fs.disk ino)).map fun disk => ⟨disk.1, disk.2, false, 1, 1, 0⟩

/-- An inode that can be loaded. In memory it is kept by references. -/
structure Loadable (vol : Volume) (ino : Nat) (inode : Inode) : Prop where
  retained : held vol ino = some inode
  type : inode.din.type ≠ .link
  links : inode.nlinks ≠ 0
  inuse : InUse vol.fs ino
  mounted : Mounted vol.fs
  pinned : ∀ inode, vol.inodes ino = some inode → 0 < inode.refCount

/-- A directory that can be loaded and read. In memory it is kept by references. -/
structure Readable (vol : Volume) (ino : Nat) (inode : Inode) : Prop where
  retained : held vol ino = some inode
  type : inode.din.type = .dir
  links : inode.nlinks ≠ 0
  inuse : InUse vol.fs ino
  slots : Slots (vol.node inode)
  pinned : ∀ inode, vol.inodes ino = some inode → 0 < inode.refCount

/-- The device or the allocator refuses a request with this error. -/
def Refused (vol : Volume) (ret : Int) : Prop := Refuses vol.fs ret ∨ ret = -eNoMem ∧ ∃ n, vol.kmallocs n = false

theorem Waited.refused {ret : Int} (waited : Waited vol after) (refused : Refused after ret) : Refused vol ret := by
  obtain ⟨fs, n, later, rfl⟩ := waited
  rcases refused with refused | ⟨code, k, refused⟩
  · exact .inl (later.refuses refused)
  · exact .inr ⟨code, n + k, refused⟩

theorem Waited.set (waited : Waited vol after) (ino : Nat) (inode : Option Inode) :
    Waited (vol.set ino inode) (after.set ino inode) := by
  obtain ⟨fs, n, later, rfl⟩ := waited
  exact ⟨fs, n, later, rfl⟩

theorem Waited.inodes (waited : Waited vol after) : after.inodes = vol.inodes := by
  obtain ⟨fs, n, later, rfl⟩ := waited
  rfl

theorem Waited.live (waited : Waited vol after) (inode : Inode) : live (after.node inode) = Sfs.live (vol.node inode) := by
  obtain ⟨fs, n, ⟨k, rfl⟩, rfl⟩ := waited
  rfl

theorem Waited.slots (waited : Waited vol after) (slots : Slots (vol.node inode)) : Slots (after.node inode) := by
  obtain ⟨fs, n, later, rfl⟩ := waited
  exact slots.later later

theorem Waited.readable (waited : Waited vol after) (readable : Readable vol ino inode) : Readable after ino inode := by
  have slots := waited.slots readable.slots
  obtain ⟨fs, n, ⟨k, rfl⟩, rfl⟩ := waited
  exact ⟨readable.retained, readable.type, readable.links, readable.inuse, slots, readable.pinned⟩

theorem Waited.loadable (waited : Waited vol after) (loadable : Loadable vol ino inode) : Loadable after ino inode := by
  obtain ⟨fs, n, ⟨k, rfl⟩, rfl⟩ := waited
  exact ⟨loadable.retained, loadable.type, loadable.links, loadable.inuse, loadable.mounted.congr rfl rfl, loadable.pinned⟩

theorem Readable.loadable (readable : Readable vol ino inode) : Loadable vol ino inode := by
  refine ⟨readable.retained, ?_, readable.links, readable.inuse, readable.slots.mounted, readable.pinned⟩
  rw [readable.type]
  nofun

theorem Readable.elsewhere (readable : Readable vol ino inode) (apart : ino ≠ dir) (other : Option Inode) :
    Readable (vol.set dir other) ino inode := by
  have same : (vol.set dir other).inodes ino = vol.inodes ino := Function.update_of_ne apart _ _
  refine ⟨?_, readable.type, readable.links, readable.inuse, readable.slots, ?_⟩
  · rw [held, same]
    exact readable.retained
  · rw [same]
    exact readable.pinned

/-- Where a directory is retained, it can be retained again. -/
theorem Readable.again (readable : Readable vol ino inode) :
    Readable (vol.set ino (some inode)) ino { inode with refCount := inode.refCount + 1 } := by
  have here : (vol.set ino (some inode)).inodes ino = some inode := Function.update_self _ _ _
  refine ⟨?_, readable.type, readable.links, readable.inuse, readable.slots, ?_⟩
  · rw [held, here]
  · rintro other loaded
    obtain rfl := Option.some.inj (here.symm.trans loaded)
    have retained := readable.retained
    unfold held at retained
    split at retained
    · cases retained
      exact Nat.succ_pos _
    · obtain ⟨⟨din, nlinks⟩, -, rfl⟩ := Option.map_eq_some_iff.mp retained
      exact Nat.one_pos

theorem onDisk_settles {α : Type} {call : Call SfsFs α} {value : α} (reads : Reads call vol.fs value) :
    Settles (onDisk call) (fun got after => got = value ∧ Waited vol after) (fun ret after => Refuses vol.fs ret ∧ Waited vol after)
      False vol := by
  have waited {fs : SfsFs} (later : Later vol.fs fs) : Waited vol { vol with fs := fs } := ⟨fs, 0, later, by simp⟩
  exact .within (Settles.weaken reads (fun _ _ held => ⟨held.1, waited held.2⟩) fun _ _ held => ⟨held.1, waited held.2⟩)

theorem Loadable.load (loadable : Loadable vol ino inode) :
    Settles (sfsLoadInode ino) (fun _ after => Waited (vol.set ino (some inode)) after)
      (fun ret after => vol.inodes ino = none ∧ Refused vol ret ∧ Waited vol after) False vol := by
  have retained := loadable.retained
  refine .bind (.gets ?_)
  cases loaded : vol.inodes ino with
  | some old =>
    rw [held, loaded] at retained
    cases retained
    apply Settles.modify
    have pinned := loadable.pinned old loaded
    rw [if_neg (by omega)]
    exact .refl _
  | none =>
    rw [held, loaded] at retained
    obtain ⟨⟨din, nlinks⟩, found, rfl⟩ := Option.map_eq_some_iff.mp retained
    let asked : Volume := { vol with kmallocs := fun k => vol.kmallocs (1 + k) }
    have waited : Waited vol asked := ⟨vol.fs, 1, .refl _, rfl⟩
    refine .bind (kmalloc_settles ?_)
    cases memory : vol.kmallocs 0 with
    | false => exact .fail ⟨rfl, .inr ⟨rfl, 0, memory⟩, waited⟩
    | true =>
      have tested := @onDisk_settles asked Bool _ _ (blockInuse_reads loadable.inuse)
      refine .bind (tested.weaken ?_ fun ret after refused => ⟨rfl, .inl refused.1, waited.trans refused.2⟩)
      rintro _ checked ⟨rfl, passed⟩
      have waited := waited.trans passed
      have loadable' := waited.loadable loadable
      have block : checked.fs.disk ino = vol.fs.disk ino := by
        obtain ⟨fs, n, ⟨k, rfl⟩, rfl⟩ := waited
        rfl
      refine .bind (.assert (fun _ => .bind ?_) nofun)
      refine (onDisk_settles (rbuf_reads loadable'.mounted loadable'.inuse.1 loadable'.inuse.2.1 (by decide) (by decide))).weaken ?_
        fun ret after refused => ⟨rfl, waited.refused (.inl refused.1), waited.trans refused.2⟩
      rintro _ read ⟨rfl, passed⟩
      have waited := waited.trans passed
      have links : word (checked.fs.disk ino) 1 / 2 ^ 16 = nlinks := by
        rw [block]
        exact (dinOf_links found).symm
      refine .bind (.assert (fun _ => ?_) ?_)
      · refine .bind (kmalloc_settles ?_)
        cases memory : read.kmallocs 0 with
        | false => exact .fail ⟨rfl, waited.refused (.inr ⟨rfl, 0, memory⟩), waited.trans ⟨read.fs, 1, .refl _, rfl⟩⟩
        | true =>
          rw [block, found]
          refine .bind (.assert (fun _ => .modify ?_) ?_)
          · exact (waited.trans ⟨read.fs, 1, .refl _, rfl⟩).set ino _
          · have kept : din.type ≠ .link := loadable.type
            simp [kept]
      · rw [links, decide_eq_false_iff_not, not_not]
        exact fun none => absurd none loadable.links

/-- A clean directory without references leaves memory. -/
theorem sfsReclaim_settles {din : DiskInode} {nlinks : Nat} (unused : vol.inodes ino = some ⟨din, nlinks, false, 1, 0, 0⟩)
    (dir : din.type = .dir) (links : nlinks ≠ 0) {bad : Int → Volume → Prop} :
    Settles (sfsReclaim ino) (fun _ after => after = vol.set ino none) bad False vol := by
  let last : Inode := ⟨din, nlinks, false, 0, 0, 0⟩
  have placed : (vol.set ino (some last)).inodes ino = some last := Function.update_self _ _ _
  have unlinked : decide (nlinks = 0) = false := decide_eq_false links
  have checked : Settles (vopCheck ino fileOrDir) (fun _ after => after = vol) bad False vol := by
    refine .bind (.of_run (congrArg _ unused) (.bind (.assert (fun _ => .bind (.assert (fun _ => .assert (fun _ => rfl) nofun) nofun)) ?_)))
    simp [fileOrDir, dir]
  refine .bind (checked.weaken ?_ fun _ _ failed => failed)
  rintro ⟨⟩ _ rfl
  refine .bind (.of_run (congrArg _ unused) (.bind (.assert (fun _ => .bind (.modify ?_)) nofun)))
  refine .bind (.onlyIf (fun removed => absurd removed (by simp [links])) fun _ => ?_)
  refine .bind (.of_run (congrArg _ placed) (.bind (.onlyIf nofun fun _ => .bind (.of_run (congrArg _ placed) ?_))))
  refine .bind (.onlyIf (fun removed => absurd removed (by simp [last, links])) fun _ => .bind (.assert (fun _ => .modify ?_) nofun))
  simp only [Volume.set, Function.update_idem]

/-- The reference of an inode that was retained is given back; without another one it leaves memory. -/
theorem inodeRefDec_settles (readable : Readable vol ino inode) (here : after.inodes ino = some inode) {bad : Int → Volume → Prop} :
    Settles (inodeRefDec ino) (fun _ final => final = after.set ino (vol.inodes ino)) bad False after := by
  have retained := readable.retained
  have again {first second : Option Inode} : (after.set ino first).set ino second = after.set ino second := by
    simp only [Volume.set, Function.update_idem]
  unfold inodeRefDec
  cases loaded : vol.inodes ino with
  | some old =>
    rw [held, loaded] at retained
    cases retained
    have pinned := readable.pinned old loaded
    refine .bind (.of_run (congrArg _ here) (.bind (.assert (fun _ => .bind (.modify (.onlyIf (fun last => ?_) fun _ => rfl))) nofun)))
    have last : old.refCount = 0 := of_decide_eq_true last
    omega
  | none =>
    rw [held, loaded] at retained
    obtain ⟨⟨din, nlinks⟩, found, rfl⟩ := Option.map_eq_some_iff.mp retained
    refine .bind (.of_run (congrArg _ here) (.bind (.assert (fun _ => .bind (.modify (.onlyIf (fun _ => ?_) nofun))) nofun)))
    have unused : (after.set ino (some ⟨din, nlinks, false, 1, 0, 0⟩)).inodes ino = some ⟨din, nlinks, false, 1, 0, 0⟩ :=
      Function.update_self _ _ _
    refine .bind (.attempt (Settles.weaken (sfsReclaim_settles unused readable.type readable.links) ?_ fun _ _ => False.elim))
    rintro ⟨⟩ final rfl
    exact .pure again

/-! ## Reads on the way up -/

/-- The inode that the first entry with this name is for gets a reference. -/
theorem sfsLookupOnce_looks (name : List UInt8) (loaded : vol.inodes dir = some inode) (type : inode.din.type = .dir) (slots : Slots (vol.node inode))
    (loadable : ∀ entry, (live (vol.node inode)).find? (fun entry => entry.name = name) = some entry → ∃ next, Loadable vol entry.ino next) :
    Settles (sfsLookupOnce dir name)
      (fun ino after => name.length ≤ maxFnameLen ∧
        (∃ entry, (live (vol.node inode)).find? (fun entry => entry.name = name) = some entry ∧ ino = entry.ino) ∧
        Waited (vol.set ino (held vol ino)) after)
      (fun ret after => name.length ≤ maxFnameLen ∧
        ((live (vol.node inode)).find? (fun entry => entry.name = name) = none ∧ ret = -eNoEnt ∨ Refused vol ret) ∧
        Waited vol after) (maxFnameLen < name.length) vol := by
  let asked : Volume := { vol with kmallocs := fun k => vol.kmallocs (1 + k) }
  have waited : Waited vol asked := ⟨vol.fs, 1, .refl _, rfl⟩
  refine .bind (.assert (fun short => .bind (kmalloc_settles ?_)) fun long => Nat.lt_of_not_le (of_decide_eq_false long))
  have short := of_decide_eq_true short
  cases memory : vol.kmallocs 0 with
  | false => exact .fail ⟨short, .inr (.inr ⟨rfl, 0, memory⟩), waited⟩
  | true =>
    have searched := @onInode_yields asked dir inode _ _ _ loaded
      (direntSearch_yields (waited.slots slots) type (Nat.zero_add inode.din.blocks) name)
    have same : liveFrom (asked.node inode) 0 inode.din.blocks = live (vol.node inode) := rfl
    rw [same] at searched
    refine .bind (.of_run (congrArg _ loaded) (.bind ((searched.weaken ?_ ?_).halts False.elim)))
    · rintro ino after ⟨ended, passed⟩
      obtain ⟨entry, found, rfl⟩ : ∃ entry, (live (vol.node inode)).find? (fun entry => entry.name = name) = some entry ∧ entry.ino = ino := by
        cases found : (live (vol.node inode)).find? (fun entry => entry.name = name) with
        | none =>
          rw [found] at ended
          cases ended
        | some entry =>
          rw [found] at ended
          exact ⟨entry, rfl, Except.ok.inj ended⟩
      have waited := waited.trans passed
      obtain ⟨next, loadable⟩ := loadable entry found
      refine .bind (((waited.loadable loadable).load.weaken ?_ ?_).halts False.elim)
      · rintro ⟨⟩ final loaded
        rw [← loadable.retained] at loaded
        exact .pure ⟨short, ⟨entry, found, rfl⟩, (waited.set _ _).trans loaded⟩
      · rintro ret final ⟨-, refused, passed⟩
        exact ⟨short, .inr (waited.refused refused), waited.trans passed⟩
    · rintro ret after ⟨ended | refused, passed⟩
      · cases found : (live (vol.node inode)).find? (fun entry => entry.name = name) with
        | none =>
          rw [found] at ended
          exact ⟨short, .inl ⟨rfl, (Except.error.inj ended).symm⟩, waited.trans passed⟩
        | some entry =>
          rw [found] at ended
          cases ended
      · exact ⟨short, .inr (waited.refused (.inl refused)), waited.trans passed⟩

theorem sfsLookupOnce_settles (loaded : vol.inodes dir = some inode) (type : inode.din.type = .dir) (slots : Slots (vol.node inode))
    (short : name.length ≤ maxFnameLen) (found : (live (vol.node inode)).find? (fun entry => entry.name = name) = some entry)
    (readable : Readable vol entry.ino next) :
    Settles (sfsLookupOnce dir name) (fun ino after => ino = entry.ino ∧ Waited (vol.set entry.ino (some next)) after)
      (fun ret after => Refused vol ret ∧ Waited vol after) False vol := by
  have looks := sfsLookupOnce_looks name loaded type slots fun other same => by
    rw [found] at same
    cases same
    exact ⟨next, readable.loadable⟩
  rw [found] at looks
  refine (looks.weaken ?_ ?_).halts fun long => absurd short (Nat.not_le_of_lt long)
  · rintro _ after ⟨-, ⟨_, same, rfl⟩, waited⟩
    obtain rfl := Option.some.inj same
    rw [readable.retained] at waited
    exact ⟨rfl, waited⟩
  · rintro ret after ⟨-, refused, waited⟩
    refine ⟨refused.resolve_left ?_, waited⟩
    rintro ⟨missing, -⟩
    cases missing

theorem sfsDirentFindino_settles (loaded : vol.inodes dir = some inode) (type : inode.din.type = .dir) (slots : Slots (vol.node inode))
    (nonzero : ino ≠ 0) (found : (live (vol.node inode)).find? (fun entry => entry.ino = ino) = some entry) :
    Settles (sfsDirentFindino dir ino) (fun got after => got = entry ∧ Waited vol after)
      (fun ret after => Refused vol ret ∧ Waited vol after) False vol := by
  have searched := onInode_yields loaded (direntFindino_yields slots type (Nat.zero_add inode.din.blocks) nonzero)
  have same : liveFrom (vol.node inode) 0 inode.din.blocks = live (vol.node inode) := rfl
  have room : inode.din.blocks ≤ ndirect + blkNentry := slots.room
  rw [same, found, ← blocks_toInt32 room] at searched
  refine .bind (.of_run (congrArg _ loaded) (searched.weaken ?_ ?_))
  · rintro got after ⟨ended, passed⟩
    exact ⟨(Except.ok.inj ended).symm, passed⟩
  · rintro ret after ⟨ended, passed⟩
    exact ⟨.inl (ended.resolve_left nofun), passed⟩

/-! ## The tree -/

/-- The entries of a directory, in memory or not. -/
def entriesOf (vol : Volume) (dir : Nat) : List Dirent := (held vol dir).elim [] fun inode => live (vol.node inode)

/-- The names on the way from the root. -/
inductive PathTo (root : Nat) (parent : Nat → Nat) (name : Nat → List UInt8) : Nat → List (List UInt8) → Prop where
  | root : PathTo root parent name root []
  | child {dir : Nat} {names : List (List UInt8)} (below : dir ≠ root) (path : PathTo root parent name (parent dir) names) :
    PathTo root parent name dir (names ++ [name dir])

/-- Directories with their parents and their names: `..` leads to the parent, and the parent has the
name. Going up comes to the root, which is its own parent. -/
structure Tree (vol : Volume) (dirs : Nat → Prop) (root : Nat) (parent : Nat → Nat) (name : Nat → List UInt8) : Prop where
  readable : ∀ dir, dirs dir → ∃ inode, Readable vol dir inode
  up : ∀ dir, dirs dir → dirs (parent dir)
  top : parent root = root
  climbs : ∀ dir, dirs dir → (∃ entry ∈ entriesOf vol dir, entry.name = dotdot) ∧
    ∀ entry ∈ entriesOf vol dir, entry.name = dotdot → entry.ino = parent dir
  named : ∀ dir, dirs dir → dir ≠ root → (∃ entry ∈ entriesOf vol (parent dir), entry.ino = dir) ∧
    ∀ entry ∈ entriesOf vol (parent dir), entry.ino = dir → entry.name = name dir
  rooted : ∀ dir, dirs dir → ∃ names, PathTo root parent name dir names

variable {dirs : Nat → Prop} {root : Nat} {parent : Nat → Nat} {nameOf : Nat → List UInt8} {names : List (List UInt8)}

theorem PathTo.moves (path : PathTo root parent nameOf dir names) (below : dir ≠ root) : parent dir ≠ dir := by
  induction path with
  | root => exact absurd rfl below
  | child apart path ih =>
    intro same
    rw [same] at ih
    exact ih below same

theorem entriesOf_readable (readable : Readable vol dir inode) : entriesOf vol dir = live (vol.node inode) := by
  rw [entriesOf, readable.retained, Option.elim_some]

/-- The first entry of those that satisfy a condition. -/
theorem exists_find {α : Type} {list : List α} {p : α → Bool} (some_entry : ∃ entry ∈ list, p entry = true) :
    ∃ entry ∈ list, list.find? p = some entry ∧ p entry = true := by
  cases found : list.find? p with
  | none =>
    obtain ⟨entry, member, holds⟩ := some_entry
    exact absurd holds (List.find?_eq_none.mp found entry member)
  | some entry => exact ⟨entry, List.mem_of_find?_eq_some found, rfl, List.find?_some found⟩

theorem Tree.finds_parent (tree : Tree vol dirs root parent nameOf) (member : dirs dir) (readable : Readable vol dir inode) :
    ∃ entry, (live (vol.node inode)).find? (fun entry => entry.name = dotdot) = some entry ∧ entry.ino = parent dir := by
  obtain ⟨⟨entry, inside, same⟩, leads⟩ := tree.climbs dir member
  rw [entriesOf_readable readable] at inside leads
  obtain ⟨first, inside, found, same⟩ := exists_find (p := fun entry : Dirent => decide (entry.name = dotdot)) ⟨entry, inside, decide_eq_true same⟩
  exact ⟨first, found, leads first inside (of_decide_eq_true same)⟩

theorem Tree.finds_name (tree : Tree vol dirs root parent nameOf) (member : dirs dir) (below : dir ≠ root)
    (readable : Readable vol (parent dir) inode) :
    ∃ entry, (live (vol.node inode)).find? (fun entry => entry.ino = dir) = some entry ∧ entry.name = nameOf dir := by
  obtain ⟨⟨entry, inside, same⟩, named⟩ := tree.named dir member below
  rw [entriesOf_readable readable] at inside named
  obtain ⟨first, inside, found, same⟩ := exists_find (p := fun entry : Dirent => decide (entry.ino = dir)) ⟨entry, inside, decide_eq_true same⟩
  exact ⟨first, found, named first inside (of_decide_eq_true same)⟩

/-! ## The loop -/

/-- A text of the names, each with a slash behind it. -/
def pathText (names : List (List UInt8)) : List UInt8 := (names.map (· ++ [slash])).flatten

theorem pathText_child (name : List UInt8) : pathText (names ++ [name]) = pathText names ++ (name ++ [slash]) := by
  rw [pathText, List.map_append, List.flatten_append, List.map_cons, List.map_nil, List.flatten_singleton, pathText]

/-- In the loop one directory is retained. -/
def Volume.reading (vol : Volume) (dir : Nat) (inode : Inode) (buf : Nat → UInt8) : Volume :=
  { vol.set dir (some inode) with buf := buf }

def Volume.wrote (vol : Volume) (buf : Nat → UInt8) : Volume := { vol with buf := buf }

variable {naming : Naming} {buf : Nat → UInt8} {turns ptr resid : Nat} {ret : Int}

theorem reading_set : (vol.reading dir inode buf).set dir (vol.inodes dir) = vol.wrote buf := by
  simp only [Volume.reading, Volume.set, Volume.wrote, Function.update_idem, Function.update_eq_self]

theorem Waited.wrote (waited : Waited vol after) (change : (Nat → UInt8) → Nat → UInt8) :
    Waited (vol.wrote (change vol.buf)) (after.wrote (change after.buf)) := by
  obtain ⟨fs, n, later, rfl⟩ := waited
  exact ⟨fs, n, later, rfl⟩

/-- The buffer of the caller is not read. -/
theorem Slots.reading (slots : Slots ((vol.set dir (some inode)).node next)) : Slots ((vol.reading dir inode buf).node next) :=
  ⟨slots.mounted, slots.room, slots.data, slots.indirect⟩

theorem reading_readable {other : Nat} (readable : Readable vol other next) (apart : other ≠ dir) :
    Readable (vol.reading dir inode buf) other next := by
  have there := readable.elsewhere apart (some inode)
  exact ⟨there.retained, there.type, there.links, there.inuse, there.slots.reading, there.pinned⟩

theorem reading_loaded (waited : Waited (vol.reading dir inode buf) after) : after.inodes dir = some inode := by
  rw [waited.inodes]
  exact Function.update_self _ _ _

/-- An exit before the root. -/
structure Abandoned (vol : Volume) (buf : Nat → UInt8) (ptr resid : Nat) (after : Volume) : Prop where
  bytes : ∃ buf', Waited (vol.wrote buf') after ∧ ∀ i, i < ptr - resid ∨ ptr ≤ i → buf' i = buf i

theorem Abandoned.at_once (waited : Waited (vol.wrote buf) after) : Abandoned vol buf ptr resid after := ⟨buf, waited, fun _ _ => rfl⟩

/-- It gives back the reference and the entry buffer. -/
theorem namefileFailed_settles {α : Type} {post : α → Naming → Prop} {bad : Int → Naming → Prop} {entries : Nat}
    (readable : Readable vol dir inode) (waited : Waited (vol.reading dir inode buf) after) (some_entry : 0 < entries)
    (gone : ∀ final, Waited (vol.wrote buf) final → bad ret ⟨final, entries - 1⟩) :
    Settles (namefileFailed dir ret : Call Naming α) post bad False ⟨after, entries⟩ := by
  refine .bind (.within (Settles.weaken (inodeRefDec_settles readable (reading_loaded waited)) ?_ fun _ _ => False.elim))
  rintro ⟨⟩ final rfl
  refine .bind (.bind (.gets (.bind (.assert (fun _ => .modify (.fail (gone _ ?_))) ?_))))
  · have released := waited.set dir (vol.inodes dir)
    rwa [reading_set] at released
  · intro nothing
    exact absurd some_entry (of_decide_eq_false nothing)

/-- What the loop leaves behind: the text in front of `ptr`, and everything else as it was. -/
structure Written (vol : Volume) (buf : Nat → UInt8) (ptr : Nat) (text : List UInt8) (after : Volume) : Prop where
  bytes : ∃ buf', Waited (vol.wrote buf') after ∧ Stored buf' (ptr - text.length) text ∧
    ∀ i, i < ptr - text.length ∨ ptr ≤ i → buf' i = buf i

/-- A piece of text goes in front of what follows it. -/
theorem Written.child {text piece : List UInt8} (room : piece.length + text.length ≤ ptr)
    (front : Written vol (stored buf (ptr - piece.length) piece) (ptr - piece.length) text after) :
    Written vol buf ptr (text ++ piece) after := by
  obtain ⟨buf', waited, is_stored, same⟩ := front
  have start : ptr - (text ++ piece).length = ptr - piece.length - text.length := by
    rw [List.length_append]
    omega
  refine ⟨buf', waited, ?_, fun i outside => ?_⟩
  · rw [start]
    apply is_stored.append
    rw [Nat.sub_add_cancel (by omega)]
    apply stored_inside.congr
    intro i above_ptr below_ptr
    exact same i (.inr above_ptr)
  · rw [start] at outside
    rw [same i (by omega)]
    exact stored_outside (by omega)

theorem Abandoned.child {piece : List UInt8} (room : piece.length ≤ resid) (inside : resid ≤ ptr)
    (gone : Abandoned vol (stored buf (ptr - piece.length) piece) (ptr - piece.length) (resid - piece.length) after) :
    Abandoned vol buf ptr resid after := by
  obtain ⟨buf', waited, same⟩ := gone
  refine ⟨buf', waited, fun i outside => ?_⟩
  rw [same i (by omega)]
  exact stored_outside (by omega)

theorem store_settles {pos : Nat} {bytes : List UInt8} {post : Unit → Naming → Prop} {bad : Int → Naming → Prop}
    (is_stored : post () ⟨naming.vol.wrote (stored naming.vol.buf pos bytes), naming.entries⟩) :
    Settles (store pos bytes) post bad False naming := by
  unfold store onVolume
  exact .within (.modify is_stored)

theorem reading_again (readable : Readable vol dir inode) :
    Readable (vol.reading dir inode buf) dir { inode with refCount := inode.refCount + 1 } := by
  have more := readable.again
  exact ⟨more.retained, more.type, more.links, more.inuse, more.slots.reading, more.pinned⟩

/-- One step up. -/
theorem climb_settles (tree : Tree vol dirs root parent nameOf) (member : dirs dir) (readable : Readable vol dir inode)
    (waited : Waited (vol.reading dir inode buf) after) (above : Readable (vol.reading dir inode buf) (parent dir) next) :
    Settles (sfsLookupOnce dir dotdot)
      (fun ino final => ino = parent dir ∧ Waited ((vol.reading dir inode buf).set (parent dir) (some next)) final)
      (fun ret final => Refused vol ret ∧ Waited (vol.reading dir inode buf) final) False after := by
  obtain ⟨entry, found, leads⟩ := tree.finds_parent member readable
  have same : live (after.node inode) = live (vol.node inode) := waited.live inode
  rw [← same] at found
  rw [← leads] at above ⊢
  have slots : Slots ((vol.reading dir inode buf).node inode) := Slots.reading readable.slots
  refine (sfsLookupOnce_settles (reading_loaded waited) readable.type (waited.slots slots) (by decide) found (waited.readable above)).weaken ?_ ?_
  · rintro ino final ⟨rfl, passed⟩
    exact ⟨rfl, (waited.set _ _).trans passed⟩
  · rintro ret final ⟨refused, passed⟩
    exact ⟨waited.refused refused, waited.trans passed⟩

theorem namefileLoop_settles (tree : Tree vol dirs root parent nameOf) (path : PathTo root parent nameOf dir names) (member : dirs dir)
    (readable : Readable vol dir inode) (waited : Waited (vol.reading dir inode buf) naming.vol) (some_entry : 0 < naming.entries)
    (enough : names.length < turns) (inside : resid ≤ ptr) :
    Settles (namefileLoop turns dir ptr resid)
      (fun got after => (pathText names).length ≤ resid ∧ got = (ptr - (pathText names).length, resid - (pathText names).length) ∧
        after.entries = naming.entries ∧ Written vol buf ptr (pathText names) after.vol)
      (fun ret after => (resid < (pathText names).length ∧ ret = -eNoMem ∨ Refused vol ret) ∧
        after.entries = naming.entries - 1 ∧ Abandoned vol buf ptr resid after.vol) False naming := by
  induction path generalizing naming buf ptr resid turns inode with
  | root =>
    obtain ⟨turns, rfl⟩ := Nat.exists_eq_add_one_of_ne_zero (Nat.ne_of_gt enough)
    have above : Readable (vol.reading root inode buf) root { inode with refCount := inode.refCount + 1 } := reading_again readable
    have climbs := climb_settles tree member readable waited (by rw [tree.top]; exact above)
    rw [tree.top] at climbs
    refine .bind (.within (.attempt (climbs.weaken ?_ ?_)))
    · rintro ino after ⟨same, passed⟩
      subst ino
      -- both references of the root go, the one that it was entered with and that of its parent
      have twice : after.inodes root = some { inode with refCount := inode.refCount + 1 } := by
        rw [passed.inodes]
        exact Function.update_self _ _ _
      refine .bind (.within (Settles.weaken (inodeRefDec_settles above twice) ?_ fun _ _ => False.elim))
      rintro ⟨⟩ _ rfl
      rw [if_pos rfl]
      have once := passed.set root ((vol.reading root inode buf).inodes root)
      have here : (after.set root ((vol.reading root inode buf).inodes root)).inodes root = some inode := by
        rw [once.inodes]
        exact (Function.update_self _ _ _).trans (Function.update_self _ _ _)
      refine .bind (.within (Settles.weaken (inodeRefDec_settles readable here) ?_ fun _ _ => False.elim))
      rintro ⟨⟩ _ rfl
      refine .pure ⟨Nat.zero_le _, rfl, rfl, ⟨buf, ?_, nofun, fun _ _ => rfl⟩⟩
      have released := once.set root (vol.inodes root)
      simpa only [Volume.reading, Volume.set, Volume.wrote, Function.update_idem, Function.update_eq_self] using released
    · rintro ret after ⟨refused, passed⟩
      exact namefileFailed_settles readable passed some_entry fun _ left => ⟨.inr refused, rfl, .at_once left⟩
  | @child dir names below path ih =>
    obtain ⟨turns, rfl⟩ := Nat.exists_eq_add_one_of_ne_zero (Nat.ne_of_gt (Nat.zero_lt_of_lt enough))
    obtain ⟨next, above⟩ := tree.readable (parent dir) (tree.up dir member)
    obtain ⟨entry, found, named⟩ := tree.finds_name member below above
    have moves : parent dir ≠ dir := (PathTo.child below path).moves below
    have climbs := climb_settles tree member readable waited (reading_readable above moves)
    have length : (pathText (names ++ [nameOf dir])).length = (pathText names).length + (entry.name.length + 1) := by
      rw [pathText_child, List.length_append, List.length_append, List.length_singleton, named]
    refine .bind (.within (.attempt (climbs.weaken ?_ ?_)))
    · rintro _ after ⟨rfl, passed⟩
      have loaded : after.inodes dir = some inode := by
        rw [passed.inodes]
        exact (Function.update_of_ne moves.symm _ _).trans (Function.update_self _ _ _)
      refine .bind (.within (Settles.weaken (inodeRefDec_settles readable loaded) ?_ fun _ _ => False.elim))
      rintro ⟨⟩ _ rfl
      rw [if_neg moves.symm]
      have entered : Waited (vol.reading (parent dir) next buf) (after.set dir (vol.inodes dir)) := by
        have released := passed.set dir (vol.inodes dir)
        have swapped : ((vol.reading dir inode buf).set (parent dir) (some next)).set dir (vol.inodes dir) = vol.reading (parent dir) next buf := by
          simp only [Volume.reading, Volume.set]
          rw [Function.update_comm moves, Function.update_idem, Function.update_eq_self]
        rwa [swapped] at released
      refine .bind (.within (.of_run (congrArg _ (reading_loaded entered)) (.bind (.assert (fun _ => ?_) ?_))))
      · have lists := sfsDirentFindino_settles (reading_loaded entered) above.type (entered.slots (Slots.reading above.slots))
          readable.inuse.1 (by rw [entered.live]; exact found)
        refine .bind (.within (.attempt (lists.weaken ?_ ?_)))
        · rintro got listed ⟨same, passed⟩
          subst got
          have entered := entered.trans passed
          dsimp only
          split
          · rename_i short
            exact namefileFailed_settles above entered some_entry fun _ left => ⟨.inl ⟨by omega, rfl⟩, rfl, .at_once left⟩
          · rename_i room
            refine .bind (store_settles ?_)
            have stored_name : Waited (vol.reading (parent dir) next (stored buf (ptr - (entry.name.length + 1)) (entry.name ++ [slash])))
                (listed.wrote (stored listed.buf (ptr - (entry.name.length + 1)) (entry.name ++ [slash]))) :=
              entered.wrote fun buf => stored buf (ptr - (entry.name.length + 1)) (entry.name ++ [slash])
            have fewer : names.length < turns := by
              rw [List.length_append, List.length_singleton] at enough
              omega
            have inside' : resid - (entry.name.length + 1) ≤ ptr - (entry.name.length + 1) := Nat.sub_le_sub_right inside _
            have rest := @ih next ⟨_, naming.entries⟩ _ _ _ _ (tree.up dir member) above stored_name some_entry fewer inside'
            have piece : (entry.name ++ [slash]).length = entry.name.length + 1 := by rw [List.length_append, List.length_singleton]
            rw [← piece] at rest room ⊢
            refine rest.weaken ?_ ?_
            · rintro _ final ⟨fits, rfl, entries, written⟩
              refine ⟨by omega, ?_, entries, ?_⟩
              · rw [length, piece, Nat.sub_sub, Nat.sub_sub, Nat.add_comm (pathText names).length]
              · rw [pathText_child, ← named]
                exact .child (by omega) written
            · rintro ret final ⟨failed, entries, gone⟩
              exact ⟨failed.imp_left fun short => ⟨by omega, short.2⟩, entries, .child (by omega) inside gone⟩
        · rintro ret listed ⟨refused, passed⟩
          exact namefileFailed_settles above (entered.trans passed) some_entry fun _ left => ⟨.inr (entered.refused refused), rfl, .at_once left⟩
      · simp [moves.symm, above.type]
    · rintro ret after ⟨refused, passed⟩
      exact namefileFailed_settles readable passed some_entry fun _ left => ⟨.inr refused, rfl, .at_once left⟩

/-! ## The whole call -/

/-- The path of a directory: a slash, and the names from the root on. -/
def pathOf (names : List (List UInt8)) : List UInt8 := slash :: pathText names

/-- There is room for it and a zero. -/
def HasRoom (iob : Iobuf) (names : List (List UInt8)) : Prop := (pathOf names).length + 1 ≤ iob.resid

/-- The inodes in memory, their references and the entry buffers are those of before, and so are the bytes around the buffer. -/
structure Restored (naming : Naming) (iob : Iobuf) (after : Naming) : Prop where
  inodes : after.vol.inodes = naming.vol.inodes
  entries : after.entries = naming.entries
  around : ∀ i, i < iob.base ∨ iob.base + iob.resid ≤ i → after.vol.buf i = naming.vol.buf i

/-- What a call has to come to: the path and a zero in the buffer where they fit, and `-E_NO_MEM` where they
do not, unless the device or the allocator refuses a request. -/
def WritesPath (naming : Naming) (turns dir : Nat) (iob : Iobuf) (names : List (List UInt8)) : Prop :=
  Settles (sfsNamefile turns dir iob)
    (fun got after => HasRoom iob names ∧ Restored naming iob after ∧ Stored after.vol.buf iob.base (pathOf names ++ [0]) ∧
      got = ⟨iob.base + (pathText names).length, toOff (iob.offset + (pathText names).length), iob.resid - (pathText names).length⟩)
    (fun ret after => Restored naming iob after ∧ (ret = -eNoMem ∧ ¬ HasRoom iob names ∨ Refused naming.vol ret)) False naming

theorem memmove_settles {dst src n : Nat} {post : Unit → Naming → Prop} {bad : Int → Naming → Prop}
    (is_moved : post () ⟨naming.vol.wrote (moved naming.vol.buf dst src n), naming.entries⟩) :
    Settles (memmove dst src n) post bad False naming := by
  unfold memmove onVolume
  exact .within (.modify is_moved)

theorem kmallocEntry_settles {post : Bool → Naming → Prop} {bad : Int → Naming → Prop}
    (got : naming.vol.kmallocs 0 = true → post true ⟨{ naming.vol with kmallocs := fun k => naming.vol.kmallocs (1 + k) }, naming.entries + 1⟩)
    (none_left : naming.vol.kmallocs 0 = false → post false ⟨{ naming.vol with kmallocs := fun k => naming.vol.kmallocs (1 + k) }, naming.entries⟩) :
    Settles kmallocEntry post bad False naming := by
  refine .bind (.within (kmalloc_settles ?_))
  cases memory : naming.vol.kmallocs 0 with
  | true => exact .bind (.modify (.pure (got memory)))
  | false => exact .bind (.pure (.pure (none_left memory)))

theorem kfreeEntry_settles {post : Unit → Naming → Prop} {bad : Int → Naming → Prop} (some_entry : 0 < naming.entries)
    (freed : post () ⟨naming.vol, naming.entries - 1⟩) : Settles kfreeEntry post bad False naming := by
  refine .bind (.gets (.bind (.assert (fun _ => .modify freed) ?_)))
  intro nothing
  exact absurd some_entry (of_decide_eq_false nothing)

theorem PathTo.of_root (path : PathTo root parent nameOf root names) : names = [] := by
  cases path with
  | root => rfl
  | child below _ => exact absurd rfl below

theorem PathTo.text_length (path : PathTo root parent nameOf dir names) (below : dir ≠ root) : 1 ≤ (pathText names).length := by
  cases path with
  | root => exact absurd rfl below
  | child _ _ =>
    rw [pathText_child, List.length_append, List.length_append, List.length_singleton]
    omega

/-- What the shift makes of the text at the end of the buffer. -/
theorem path_stored {buf : Nat → UInt8} {base pos : Nat} {text : List UInt8} (is_stored : Stored buf pos text) :
    Stored (stored (stored (moved buf (base + 1) pos text.length) base [slash]) (base + 1 + text.length) [0]) base (slash :: text ++ [0]) := by
  have front : Stored (stored (moved buf (base + 1) pos text.length) base [slash]) base (slash :: text) := by
    have first : Stored (stored (moved buf (base + 1) pos text.length) base [slash]) base [slash] := stored_inside
    apply first.append
    apply (moved_inside is_stored).congr
    intro i behind _
    exact stored_outside (.inr behind)
  have length : (slash :: text).length = 1 + text.length := Nat.add_comm _ _
  apply Stored.append
  · apply front.congr
    intro i _ before
    apply stored_outside
    omega
  · rw [length, ← Nat.add_assoc]
    exact stored_inside

theorem path_around {buf : Nat → UInt8} {base pos n i : Nat} (outside : i < base ∨ base + n + 2 ≤ i) :
    stored (stored (moved buf (base + 1) pos n) base [slash]) (base + 1 + n) [0] i = buf i := by
  rw [stored_outside, stored_outside, moved_outside]
  · omega
  · rw [List.length_singleton]
    omega
  · rw [List.length_singleton]
    omega

theorem kept (waited : Waited (naming.vol.wrote buf) after) : after.inodes = naming.vol.inodes ∧ after.buf = buf := by
  obtain ⟨fs, n, later, rfl⟩ := waited
  exact ⟨rfl, rfl⟩

/-- Behind its first check the call does what it has to. -/
theorem sfsNamefile_settles {iob : Iobuf} {old : Inode} (tree : Tree naming.vol dirs root parent nameOf)
    (path : PathTo root parent nameOf dir names) (member : dirs dir) (loaded : naming.vol.inodes dir = some old)
    (enough : names.length < turns) (large : 2 < iob.resid) : WritesPath naming turns dir iob names := by
  obtain ⟨inode, readable⟩ := tree.readable dir member
  have same : inode = { old with refCount := old.refCount + 1 } := by
    have retained := readable.retained
    rw [held, loaded] at retained
    exact (Option.some.inj retained).symm
  unfold WritesPath sfsNamefile
  rw [if_neg (Nat.not_le_of_lt large)]
  refine .bind (kmallocEntry_settles (fun memory => ?_) fun memory => ?_)
  swap
  · exact .fail ⟨⟨rfl, rfl, fun _ _ => rfl⟩, .inr (.inr ⟨rfl, 0, memory⟩)⟩
  refine .bind (.within (.bind (.of_run (congrArg _ loaded) (.modify ?_))))
  have entered : Waited (naming.vol.reading dir inode naming.vol.buf)
      ({ naming.vol with kmallocs := fun k => naming.vol.kmallocs (1 + k) }.set dir (some { old with refCount := old.refCount + 1 })) := by
    rw [same]
    exact ⟨naming.vol.fs, 1, .refl _, rfl⟩
  have loop := @namefileLoop_settles _ _ _ _ _ _ _ _ ⟨_, naming.entries + 1⟩ _ _ (iob.base + iob.resid) (iob.resid - 2)
    tree path member readable entered (Nat.succ_pos _) enough (by omega)
  refine .bind (loop.weaken ?_ ?_)
  · rintro _ after ⟨fits, rfl, entries, ⟨buf, waited, text, around⟩⟩
    obtain ⟨inodes, bytes⟩ := kept waited
    have alen : iob.resid - (iob.resid - 2 - (pathText names).length) - 2 = (pathText names).length := by omega
    dsimp only
    rw [alen]
    refine .bind (memmove_settles (.bind (store_settles (.bind (store_settles ?_)))))
    refine .bind (.bind (.assert (fun _ => .pure (.bind (kfreeEntry_settles ?_ (.pure ⟨?_, ⟨inodes, ?_, fun i outside => ?_⟩, ?_, rfl⟩)))) ?_))
    · rw [entries]
      exact Nat.succ_pos _
    · rw [HasRoom, pathOf, List.length_cons]
      omega
    · change after.entries - 1 = naming.entries
      rw [entries]
      rfl
    · refine (path_around (by omega)).trans ?_
      rw [bytes, around i (by omega)]
    · change Stored (stored (stored (moved after.vol.buf _ _ _) _ _) _ _) _ _
      rw [bytes]
      exact path_stored text
    · intro short
      have short := of_decide_eq_false short
      omega
  · rintro ret after ⟨failed, entries, ⟨buf, waited, around⟩⟩
    obtain ⟨inodes, bytes⟩ := kept waited
    refine ⟨⟨inodes, entries, fun i outside => ?_⟩, failed.imp_left fun short => ⟨short.2, ?_⟩⟩
    · rw [bytes]
      exact around i (by omega)
    · rw [HasRoom, pathOf, List.length_cons]
      omega

/-- `sfs_namefile` gives the path of a directory with its zero exactly where the buffer has room for them, at any
depth and whatever the buffer, but for the root: for its two bytes it asks for three. -/
theorem path_written_iff (naming : Naming) (dirs : Nat → Prop) (root : Nat) (parent : Nat → Nat) (name : Nat → List UInt8)
    (tree : Tree naming.vol dirs root parent name) (dir : Nat) (member : dirs dir) (loaded : (naming.vol.inodes dir).isSome) :
    ∃ names, PathTo root parent name dir names ∧ ∀ turns, names.length < turns → ∀ iob,
      (WritesPath naming turns dir iob names ↔ (dir = root → iob.resid = 2 → Refused naming.vol (-eNoMem))) := by
  obtain ⟨names, path⟩ := tree.rooted dir member
  obtain ⟨old, loaded⟩ := Option.isSome_iff_exists.mp loaded
  refine ⟨names, path, fun turns enough iob => ?_⟩
  by_cases large : 2 < iob.resid
  · exact iff_of_true (sfsNamefile_settles tree path member loaded enough large) fun _ same => by omega
  have small : iob.resid ≤ 2 := Nat.le_of_not_lt large
  have turned_down : Fails (sfsNamefile turns dir iob) naming (-eNoMem) naming := by
    rw [Fails, sfsNamefile, if_pos small]
    rfl
  constructor
  · intro writes at_root two
    subst at_root
    have room : HasRoom iob names := by
      rw [HasRoom, path.of_root, two]
      decide
    exact (writes.fails _ _ turned_down).2.resolve_left fun short => short.2 room
  · intro at_root
    unfold WritesPath sfsNamefile
    rw [if_pos small]
    refine .fail ⟨⟨rfl, rfl, fun _ _ => rfl⟩, ?_⟩
    by_cases top : dir = root ∧ iob.resid = 2
    · exact .inr (at_root top.1 top.2)
    · refine .inl ⟨rfl, fun room => top ?_⟩
      rw [HasRoom, pathOf, List.length_cons] at room
      by_cases same : dir = root
      · exact ⟨same, by omega⟩
      · have text := path.text_length same
        omega

/-! ## A root with one directory -/

/-- A block with one entry. -/
def entryBlock (ino : UInt8) (name : List UInt8) : Block := stored (fun i => if i = 0 then ino else 0) 4 name

/-- The root in block 1, with the directory in block 3. -/
def treeDins (ino : Nat) : DiskInode where
  size := 0
  type := .dir
  blocks := if ino = 1 then 3 else 2
  direct := fun i => if ino = 1 then (if i < 3 then 4 + i else 0) else if i < 2 then 7 + i else 0
  indirect := 0

def treeDisk : Volume where
  fs := {
    blocks := 10
    unusedBlocks := 1
    superDirty := false
    freemap := fun blkno => decide (blkno = 9)
    disk := fun blkno =>
      if blkno = 1 then overlay (fun _ => 0) (dinBytes (treeDins 1) 1) dinSize 0
      else if blkno = 3 then overlay (fun _ => 0) (dinBytes (treeDins 3) 1) dinSize 0
      else if blkno = 4 then entryBlock 1 [0x2e]
      else if blkno = 5 then entryBlock 1 dotdot
      else if blkno = 6 then entryBlock 3 [0x61, 0x62]
      else if blkno = 7 then entryBlock 3 [0x2e]
      else if blkno = 8 then entryBlock 1 dotdot
      else fun _ => 0
    dBlocks := 10
    faults := fun _ _ _ => none }
  inodes := fun ino => if ino = 1 ∨ ino = 3 then some ⟨treeDins ino, 1, false, 1, 1, 0⟩ else none
  kmallocs := fun _ => true
  buf := fun _ => 0

theorem treeDisk_entries : (entriesOf treeDisk 1).map (fun entry => (entry.ino, entry.name)) = [(1, [0x2e]), (1, dotdot), (3, [0x61, 0x62])] ∧
    (entriesOf treeDisk 3).map (fun entry => (entry.ino, entry.name)) = [(3, [0x2e]), (1, dotdot)] := by decide +kernel

theorem treeDisk_readable (dir : Nat) (member : dir = 1 ∨ dir = 3) : Readable treeDisk dir ⟨treeDins dir, 1, false, 1, 2, 0⟩ := by
  have inside (i : Nat) (below : i < (treeDins dir).blocks) : InUse treeDisk.fs (fileBlock (treeDisk.node ⟨treeDins dir, 1, false, 1, 2, 0⟩) i) := by
    rcases member with rfl | rfl
    · have below : i < 3 := below
      interval_cases i <;> exact ⟨by decide, by decide, rfl⟩
    · have below : i < 2 := below
      interval_cases i <;> exact ⟨by decide, by decide, rfl⟩
  have found : treeDisk.inodes dir = some ⟨treeDins dir, 1, false, 1, 1, 0⟩ := if_pos member
  refine ⟨?_, rfl, Nat.one_ne_zero, ?_, ⟨⟨le_rfl, show 10 < 2 ^ 20 by decide⟩, ?_, inside, fun present => absurd rfl present⟩, ?_⟩
  · rw [held, found]
  · rcases member with rfl | rfl <;> exact ⟨by decide, by decide, rfl⟩
  · rcases member with rfl | rfl <;> decide
  · intro inode loaded
    obtain rfl := Option.some.inj (found.symm.trans loaded)
    exact Nat.one_pos

theorem exists_listed {list : List Dirent} {pairs : List (Nat × List UInt8)} (listed : list.map (fun entry => (entry.ino, entry.name)) = pairs)
    {p : Nat → List UInt8 → Prop} (found : ∃ pair ∈ pairs, p pair.1 pair.2) : ∃ entry ∈ list, p entry.ino entry.name := by
  obtain ⟨pair, member, holds⟩ := found
  rw [← listed] at member
  obtain ⟨entry, inside, rfl⟩ := List.mem_map.mp member
  exact ⟨entry, inside, holds⟩

theorem forall_listed {list : List Dirent} {pairs : List (Nat × List UInt8)} (listed : list.map (fun entry => (entry.ino, entry.name)) = pairs)
    {p : Nat → List UInt8 → Prop} (all : ∀ pair ∈ pairs, p pair.1 pair.2) : ∀ entry ∈ list, p entry.ino entry.name := by
  intro entry member
  refine all (entry.ino, entry.name) ?_
  rw [← listed]
  exact List.mem_map_of_mem member

theorem treeDisk_tree : Tree treeDisk (fun dir => dir = 1 ∨ dir = 3) 1 (fun _ => 1) fun _ => [0x61, 0x62] := by
  obtain ⟨top, sub⟩ := treeDisk_entries
  refine ⟨fun dir member => ⟨_, treeDisk_readable dir member⟩, fun _ _ => .inl rfl, rfl, ?_, ?_, ?_⟩
  · rintro dir (rfl | rfl)
    · exact ⟨exists_listed top (p := fun _ name => name = dotdot) (by decide), forall_listed top (p := fun ino name => name = dotdot → ino = 1) (by decide)⟩
    · exact ⟨exists_listed sub (p := fun _ name => name = dotdot) (by decide), forall_listed sub (p := fun ino name => name = dotdot → ino = 1) (by decide)⟩
  · rintro dir (rfl | rfl) below
    · exact absurd rfl below
    · exact ⟨exists_listed top (p := fun ino _ => ino = 3) (by decide),
        forall_listed top (p := fun ino name => ino = 3 → name = [0x61, 0x62]) (by decide)⟩
  · rintro dir (rfl | rfl)
    · exact ⟨_, .root⟩
    · exact ⟨_, .child (by decide) .root⟩

/-- In a buffer of six bytes there is room for the path of the directory. -/
theorem subdirectory_written : ∃ names, PathTo 1 (fun _ => 1) (fun _ => [0x61, 0x62]) 3 names ∧ ∀ turns, names.length < turns →
    WritesPath ⟨treeDisk, 0⟩ turns 3 ⟨10, 0, 6⟩ names := by
  obtain ⟨names, path, writes⟩ := path_written_iff ⟨treeDisk, 0⟩ _ 1 _ _ treeDisk_tree 3 (.inr rfl) rfl
  exact ⟨names, path, fun turns enough => (writes turns enough ⟨10, 0, 6⟩).mpr nofun⟩

/-- The two bytes of the path of the root and its zero are refused a buffer of two bytes. -/
theorem root_refused : Tree treeDisk (fun dir => dir = 1 ∨ dir = 3) 1 (fun _ => 1) (fun _ => [0x61, 0x62]) ∧ HasRoom ⟨0, 0, 2⟩ [] ∧
    Fails (sfsNamefile 1 1 ⟨0, 0, 2⟩) ⟨treeDisk, 0⟩ (-eNoMem) ⟨treeDisk, 0⟩ ∧ ¬ WritesPath ⟨treeDisk, 0⟩ 1 1 ⟨0, 0, 2⟩ [] := by
  have failed : Fails (sfsNamefile 1 1 ⟨0, 0, 2⟩) ⟨treeDisk, 0⟩ (-eNoMem) ⟨treeDisk, 0⟩ := rfl
  have room : HasRoom ⟨0, 0, 2⟩ [] := by
    unfold HasRoom
    decide
  refine ⟨treeDisk_tree, room, failed, fun writes => ?_⟩
  rcases (writes.fails _ _ failed).2 with short | refused | ⟨-, n, refused⟩
  · exact short.2 room
  · obtain ⟨n, d, write, answer⟩ := refused
    cases answer
  · cases refused

end Ucore.Sfs
