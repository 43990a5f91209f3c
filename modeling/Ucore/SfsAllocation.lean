import Ucore.SfsLocal
import Ucore.SfsVolume

/-! Who has which block of a mounted SFS: every block in use is part of the fixed
metadata or belongs to one inode, and the superblock counts the rest. A call on
one file keeps this. -/
namespace Ucore.Sfs
open Call Runs

variable {vol after : Volume} {ino k d : Nat} {inode : Inode} {block : Block} {din : DiskInode} {ret : Int}
  {nlinks : Nat}

/-! ## An inode in its block -/

theorem loadU32_bytes (data : Block) (value : Nat) (bytes : ∀ j < 4, data (k * 4 + j) = bytesU32 value j) :
    loadU32 data (k * 4) = value % 2 ^ 32 := by
  unfold loadU32
  have first := bytes 0 (by omega)
  rw [Nat.add_zero] at first
  rw [first, bytes 1 (by omega), bytes 2 (by omega), bytes 3 (by omega)]
  simp only [bytesU32, UInt8.toNat_ofNat']
  omega

theorem word_dinBytes (block : Block) (din : DiskInode) (nlinks : Nat) (inside : k < 3 + ndirect + 1) :
    word (overlay block (dinBytes din nlinks) dinSize 0) k = dinWord din nlinks k % 2 ^ 32 := by
  refine loadU32_bytes _ _ fun j below => ?_
  have small : k * 4 + j < 0 + dinSize := by
    simp only [ndirect, dinSize] at *
    omega
  rw [overlay_inside _ _ (Nat.zero_le _) small, Nat.sub_zero]
  unfold dinBytes
  rw [show (k * 4 + j) / 4 = k by omega, show (k * 4 + j) % 4 = j by omega]

/-- Two inodes with the same type and block map. -/
structure SameMap (a b : DiskInode) : Prop where
  type : a.type = b.type
  blocks : a.blocks = b.blocks
  direct : ∀ i < ndirect, a.direct i = b.direct i
  indirect : a.indirect = b.indirect

/-- An inode that was written back is read again with its block map. -/
theorem dinOf_dinBytes (block : Block) (nlinks : Nat) (blocks : din.blocks < 2 ^ 32)
    (direct : ∀ i < ndirect, din.direct i < 2 ^ 32) (indirect : din.indirect < 2 ^ 32) :
    ∃ read links, dinOf (overlay block (dinBytes din nlinks) dinSize 0) = some (read, links) ∧
      SameMap read din := by
  have first := word_dinBytes block din nlinks (show 1 < 3 + ndirect + 1 by decide)
  have code : word (overlay block (dinBytes din nlinks) dinSize 0) 1 % 2 ^ 16 = typeCode din.type := by
    rw [first, dinWord, if_neg (by decide), if_pos rfl]
    cases din.type <;> simp only [typeCode] <;> omega
  have type : typeOf (word (overlay block (dinBytes din nlinks) dinSize 0) 1 % 2 ^ 16) = some din.type := by
    rw [code]
    cases din.type <;> rfl
  refine ⟨_, _, congrArg (Option.map _) type, rfl, ?_, fun i below => ?_, ?_⟩
  · dsimp only
    rw [word_dinBytes _ _ _ (by decide), dinWord, if_neg (by decide), if_neg (by decide), if_pos rfl]
    exact Nat.mod_eq_of_lt blocks
  · dsimp only
    rw [if_pos below, word_dinBytes _ _ _ (by omega), dinWord, if_neg (by omega), if_neg (by omega),
      if_neg (by omega), if_pos (by omega), Nat.add_sub_cancel_left]
    exact Nat.mod_eq_of_lt (direct i below)
  · dsimp only
    rw [word_dinBytes _ _ _ (by omega), dinWord, if_neg (by omega), if_neg (by omega), if_neg (by omega),
      if_neg (by omega)]
    exact Nat.mod_eq_of_lt indirect

/-! ## Who has which block -/

/-- The block map of an inode on its own, a file's or a directory's. -/
def fileNode (fs : SfsFs) (din : DiskInode) : Node where
  fs := fs
  din := { din with type := .file }
  dirty := false
  buf := fun _ => 0
  moved := []

/-- The inode of a block: in memory, or else as the disk has it. -/
def Volume.dinAt (vol : Volume) (ino : Nat) : Option DiskInode :=
  match vol.inodes ino with
  | some inode => some inode.din
  | none => (dinOf (vol.fs.disk ino)).map Prod.fst

/-- The blocks an inode refers to: its own, those in its map and its indirect block. -/
def references (vol : Volume) (ino : Nat) : List Nat :=
  match vol.dinAt ino with
  | some din => ino :: ((List.range (ndirect + blkNentry)).map (fileBlock (fileNode vol.fs din)) ++
      [din.indirect]).filter (· ≠ 0)
  | none => []

/-- The superblock and the blocks of the freemap. -/
def Fixed (sfs : SfsFs) (d : Nat) : Prop :=
  d = 0 ∨ (blknFreemap ≤ d ∧ d < blknFreemap + freemapBits sfs.blocks / blkbits)

/-- The count of free blocks is right, and every block in use that is not fixed belongs to
one of the inodes, once. -/
structure Allocated (inodes : List Nat) (vol : Volume) : Prop where
  unused : vol.fs.unusedBlocks = (freeSet vol.fs).card
  known : ∀ ino ∈ inodes, ∃ din, vol.dinAt ino = some din
  marked : ∀ ino ∈ inodes, ∀ d ∈ references vol ino, InUse vol.fs d
  once : (inodes.flatMap (references vol)).Nodup
  owned : ∀ d < vol.fs.blocks, vol.fs.freemap d = false →
    Fixed vol.fs d ∨ ∃ ino ∈ inodes, d ∈ references vol ino

variable {inodes : List Nat} {dins : Nat → DiskInode} {fs : SfsFs} {a b : DiskInode} {other : Nat}

def Owns (fs : SfsFs) (ino : Nat) (din : DiskInode) (d : Nat) : Prop := d = ino ∨ Maps (fileNode fs din) d

/-- The inode's block has its block map. -/
def Backed (dins : Nat → DiskInode) (vol : Volume) (ino : Nat) : Prop :=
  ∃ read links, dinOf (vol.fs.disk ino) = some (read, links) ∧ SameMap read (dins ino)

/-- The blocks that say where things are: indirect blocks, and the data of directories. -/
def Pinned (inodes : List Nat) (dins : Nat → DiskInode) (fs : SfsFs) (d : Nat) : Prop :=
  ∃ ino ∈ inodes, ((dins ino).indirect ≠ 0 ∧ (dins ino).indirect = d) ∨
    ((dins ino).type = .dir ∧ ∃ slot < (dins ino).blocks, fileBlock (fileNode fs (dins ino)) slot = d)

/-- A volume whose inodes have the block maps `dins`. A directory's inode does not change. -/
structure WellFormed (inodes : List Nat) (dins : Nat → DiskInode) (vol : Volume) : Prop where
  counted : Counted vol.fs
  distinct : inodes.Nodup
  root : blknRoot ∈ inodes
  loaded : ∀ ino inode, vol.inodes ino = some inode →
    ino ∈ inodes ∧ SameMap inode.din (dins ino) ∧ inode.nlinks ≠ 0
  stored : ∀ ino ∈ inodes, vol.inodes ino = none ∨ (dins ino).type = .dir → Backed dins vol ino
  sound : ∀ ino ∈ inodes, Sound (fileNode vol.fs (dins ino))
  self : ∀ ino ∈ inodes, InUse vol.fs ino ∧ ¬ Maps (fileNode vol.fs (dins ino)) ino
  apart : ∀ ino ∈ inodes, ∀ other ∈ inodes, ∀ d,
    Owns vol.fs ino (dins ino) d → Owns vol.fs other (dins other) d → ino = other
  owned : ∀ d < vol.fs.blocks, vol.fs.freemap d = false →
    Fixed vol.fs d ∨ ∃ ino ∈ inodes, Owns vol.fs ino (dins ino) d
  entries : ∀ dir ∈ inodes, (dins dir).type = .dir → ∀ slot < (dins dir).blocks,
    (direntOf (vol.fs.disk (fileBlock (fileNode vol.fs (dins dir)) slot))).ino ≠ 0 →
      (direntOf (vol.fs.disk (fileBlock (fileNode vol.fs (dins dir)) slot))).ino ∈ inodes

theorem SameMap.refl (din : DiskInode) : SameMap din din := ⟨rfl, rfl, fun _ _ => rfl, rfl⟩

theorem SameMap.trans {c : DiskInode} (first : SameMap a b) (second : SameMap b c) : SameMap a c :=
  ⟨first.type.trans second.type, first.blocks.trans second.blocks,
    fun i below => (first.direct i below).trans (second.direct i below), first.indirect.trans second.indirect⟩

theorem SameMap.map (same : SameMap a b) (fs : SfsFs) (i : Nat) :
    fileBlock (fileNode fs a) i = fileBlock (fileNode fs b) i := by
  by_cases direct : i < ndirect
  · rw [fileBlock_direct direct, fileBlock_direct direct]
    exact same.direct i direct
  by_cases absent : b.indirect = 0
  · rw [fileBlock_absent direct (same.indirect.trans absent), fileBlock_absent direct absent]
  · have present : a.indirect ≠ 0 := by rwa [same.indirect]
    rw [fileBlock_indirect direct present, fileBlock_indirect direct absent]
    exact congrArg (fun d => loadU32 (fs.disk d) ((i - ndirect) * 4)) same.indirect

theorem SameMap.maps (same : SameMap a b) : Maps (fileNode fs a) d ↔ Maps (fileNode fs b) d :=
  Maps.congr ⟨same.blocks, same.indirect⟩ fun i _ => same.map fs i

theorem SameMap.sound (same : SameMap a b) (sound : Sound (fileNode fs b)) : Sound (fileNode fs a) :=
  sound.congr same.blocks same.indirect rfl ⟨rfl, rfl⟩ rfl (same.map fs)

/-- The map of an inode does not change where its indirect block does not. -/
theorem map_congr {fs' : SfsFs} (disk : a.indirect ≠ 0 → fs'.disk a.indirect = fs.disk a.indirect) (i : Nat) :
    fileBlock (fileNode fs' a) i = fileBlock (fileNode fs a) i := by
  have same : (fileNode fs' a).din = (fileNode fs a).din := rfl
  exact fileBlock_congr same disk i

/-! ## Steps that leave the maps alone -/

theorem WellFormed.mounted (wf : WellFormed inodes dins vol) : Mounted vol.fs :=
  (wf.sound _ wf.root).mounted.congr rfl rfl

/-- Nothing that matters is written, and the inodes in memory stay what they are. -/
theorem WellFormed.move (wf : WellFormed inodes dins vol)
    (super : after.fs.blocks = vol.fs.blocks ∧ after.fs.dBlocks = vol.fs.dBlocks)
    (freemap : after.fs.freemap = vol.fs.freemap ∧ after.fs.unusedBlocks = vol.fs.unusedBlocks)
    (disk : ∀ d, Pinned inodes dins vol.fs d → after.fs.disk d = vol.fs.disk d)
    (loaded : ∀ ino inode, after.inodes ino = some inode →
      ino ∈ inodes ∧ SameMap inode.din (dins ino) ∧ inode.nlinks ≠ 0)
    (stored : ∀ ino ∈ inodes, after.inodes ino = none ∨ (dins ino).type = .dir → Backed dins after ino) :
    WellFormed inodes dins after := by
  have map : ∀ ino ∈ inodes, ∀ i,
      fileBlock (fileNode after.fs (dins ino)) i = fileBlock (fileNode vol.fs (dins ino)) i :=
    fun ino member => map_congr fun present => disk _ ⟨ino, member, .inl ⟨present, rfl⟩⟩
  have maps : ∀ ino ∈ inodes, ∀ d, Maps (fileNode after.fs (dins ino)) d ↔ Maps (fileNode vol.fs (dins ino)) d :=
    fun ino member d => Maps.congr ⟨rfl, rfl⟩ fun i _ => map ino member i
  have owns : ∀ ino ∈ inodes, ∀ d, Owns after.fs ino (dins ino) d ↔ Owns vol.fs ino (dins ino) d :=
    fun ino member d => or_congr Iff.rfl (maps ino member d)
  refine ⟨?_, wf.distinct, wf.root, loaded, stored, fun ino member => ?_, fun ino member => ?_, ?_, ?_, ?_⟩
  · have same : freeSet after.fs = freeSet vol.fs := by
      unfold freeSet
      rw [super.1, freemap.1]
    rw [Counted, same, freemap.2]
    exact wf.counted
  · exact (wf.sound ino member).congr rfl rfl rfl super freemap.1 (map ino member)
  · obtain ⟨used, own⟩ := wf.self ino member
    rw [maps ino member, InUse, super.1, freemap.1]
    exact ⟨used, own⟩
  · intro ino member other member' d first second
    exact wf.apart ino member other member' d ((owns ino member d).mp first) ((owns other member' d).mp second)
  · intro d below used
    rw [super.1] at below
    rw [freemap.1] at used
    rcases wf.owned d below used with fixed | ⟨ino, member, own⟩
    · refine .inl ?_
      rw [Fixed, super.1]
      exact fixed
    · exact .inr ⟨ino, member, (owns ino member d).mpr own⟩
  · intro dir member type slot below
    have pinned : Pinned inodes dins vol.fs (fileBlock (fileNode vol.fs (dins dir)) slot) :=
      ⟨dir, member, .inr ⟨type, slot, below, rfl⟩⟩
    rw [map dir member, disk _ pinned]
    exact wf.entries dir member type slot below

/-- A step that does not touch the disk. -/
theorem WellFormed.memory (wf : WellFormed inodes dins vol)
    (fs : ∃ faults, after.fs = { vol.fs with faults := faults })
    (loaded : ∀ ino inode, after.inodes ino = some inode →
      ino ∈ inodes ∧ SameMap inode.din (dins ino) ∧ inode.nlinks ≠ 0)
    (stored : ∀ ino ∈ inodes, after.inodes ino = none → vol.inodes ino = none ∨ Backed dins vol ino) :
    WellFormed inodes dins after := by
  obtain ⟨faults, fs⟩ := fs
  refine wf.move ?_ ?_ (fun d _ => by rw [fs]) loaded fun ino member which => ?_
  · rw [fs]
    exact ⟨rfl, rfl⟩
  · rw [fs]
    exact ⟨rfl, rfl⟩
  · rw [Backed, fs]
    rcases which with absent | type
    · rcases stored ino member absent with absent | backed
      · exact wf.stored ino member (.inl absent)
      · exact backed
    · exact wf.stored ino member (.inr type)

theorem WellFormed.same (wf : WellFormed inodes dins vol)
    (fs : ∃ faults, after.fs = { vol.fs with faults := faults }) (memory : after.inodes = vol.inodes) :
    WellFormed inodes dins after :=
  wf.memory fs (fun ino inode at_ino => wf.loaded ino inode (memory ▸ at_ino)) fun _ _ absent =>
    .inl (memory ▸ absent)

theorem set_self (found : Option Inode) : (vol.set ino found).inodes ino = found := Function.update_self _ _ _

theorem set_other (found : Option Inode) (differ : other ≠ ino) : (vol.set ino found).inodes other = vol.inodes other :=
  Function.update_of_ne differ _ _

/-- An inode in memory may change, but not its map. -/
theorem WellFormed.set (wf : WellFormed inodes dins vol) (member : ino ∈ inodes)
    (same : SameMap inode.din (dins ino)) (links : inode.nlinks ≠ 0) :
    WellFormed inodes dins (vol.set ino (some inode)) := by
  refine wf.memory ⟨_, rfl⟩ (fun other found at_other => ?_) fun other _ absent => .inl ?_
  · by_cases here : other = ino
    · subst here
      obtain rfl := Option.some.inj ((set_self _).symm.trans at_other)
      exact ⟨member, same, links⟩
    · rw [set_other _ here] at at_other
      exact wf.loaded other found at_other
  · by_cases here : other = ino
    · subst here
      cases (set_self _).symm.trans absent
    · rwa [set_other _ here] at absent

/-- An inode whose map is on the disk may go. -/
theorem WellFormed.drop (wf : WellFormed inodes dins vol) (backed : Backed dins vol ino) :
    WellFormed inodes dins (vol.set ino none) := by
  refine wf.memory ⟨_, rfl⟩ (fun other found at_other => ?_) fun other _ absent => ?_
  · by_cases here : other = ino
    · subst here
      cases (set_self _).symm.trans at_other
    · rw [set_other _ here] at at_other
      exact wf.loaded other found at_other
  · by_cases here : other = ino
    · subst here
      exact .inr backed
    · rw [set_other _ here] at absent
      exact .inl absent

/-! ## What a volume with maps has allocated -/

theorem WellFormed.dinAt (wf : WellFormed inodes dins vol) (member : ino ∈ inodes) :
    ∃ din, vol.dinAt ino = some din ∧ SameMap din (dins ino) := by
  cases at_ino : vol.inodes ino with
  | some inode =>
    refine ⟨inode.din, ?_, (wf.loaded ino inode at_ino).2.1⟩
    simp only [Volume.dinAt, at_ino]
  | none =>
    obtain ⟨read, links, found, same⟩ := wf.stored ino member (.inl at_ino)
    refine ⟨read, ?_, same⟩
    simp only [Volume.dinAt, at_ino, found, Option.map_some]

theorem mem_references (at_ino : vol.dinAt ino = some din) (sound : Sound (fileNode vol.fs din)) :
    d ∈ references vol ino ↔ Owns vol.fs ino din d := by
  simp only [references, at_ino, List.mem_cons, List.mem_filter, List.mem_append, List.mem_map,
    List.mem_range, List.not_mem_nil, or_false, decide_eq_true_eq]
  refine or_congr Iff.rfl ⟨?_, ?_⟩
  · rintro ⟨⟨i, below, rfl⟩ | rfl, nonzero⟩
    · refine .inl ⟨i, ?_, rfl⟩
      by_contra outside
      exact nonzero (sound.unmapped i (Nat.le_of_not_lt outside) below)
    · exact .inr ⟨nonzero, rfl⟩
  · rintro (⟨i, below, rfl⟩ | ⟨present, rfl⟩)
    · exact ⟨.inl ⟨i, Nat.lt_of_lt_of_le below sound.room, rfl⟩, (sound.data i below).1⟩
    · exact ⟨.inr rfl, present⟩

theorem references_nodup (at_ino : vol.dinAt ino = some din) (sound : Sound (fileNode vol.fs din))
    (self : ¬ Maps (fileNode vol.fs din) ino) : (references vol ino).Nodup := by
  have inside : ∀ i, i < ndirect + blkNentry → fileBlock (fileNode vol.fs din) i ≠ 0 → i < din.blocks := by
    intro i below mapped
    by_contra outside
    exact mapped (sound.unmapped i (Nat.le_of_not_lt outside) below)
  have member := fun d => mem_references (d := d) at_ino sound
  simp only [references, at_ino] at member ⊢
  refine List.nodup_cons.mpr ⟨fun again => ?_, ?_⟩
  · simp only [List.mem_filter, List.mem_append, List.mem_map, List.mem_range, List.mem_singleton,
      decide_eq_true_eq] at again
    rcases again with ⟨⟨i, below, same⟩ | same, nonzero⟩
    · exact self (.inl ⟨i, inside i below (by rwa [same]), same⟩)
    · exact self (.inr ⟨by rwa [same] at nonzero, same.symm⟩)
  rw [List.filter_append, List.filter_map]
  refine List.nodup_append.mpr ⟨?_, ?_, ?_⟩
  · refine List.Nodup.map_on (fun i first j second same => ?_) (List.nodup_range.filter _)
    simp only [List.mem_filter, List.mem_range, Function.comp_apply, decide_eq_true_eq] at first second
    exact sound.apart i (inside i first.1 first.2) j (inside j second.1 second.2) same
  · exact (List.nodup_singleton _).filter _
  · intro d first d' second same
    simp only [List.mem_map, List.mem_filter, List.mem_range, Function.comp_apply, decide_eq_true_eq,
      List.mem_singleton] at first second
    obtain ⟨i, ⟨below, mapped⟩, rfl⟩ := first
    obtain ⟨rfl, present⟩ := second
    exact (sound.indirect present).2 i (inside i below mapped) same

/-- The freemap has the blocks of the inodes and the fixed ones. -/
theorem WellFormed.allocated (wf : WellFormed inodes dins vol) : Allocated inodes vol := by
  have refers : ∀ ino ∈ inodes, ∀ d, d ∈ references vol ino ↔ Owns vol.fs ino (dins ino) d := by
    intro ino member d
    obtain ⟨din, at_ino, same⟩ := wf.dinAt member
    rw [mem_references at_ino (same.sound (wf.sound ino member))]
    exact or_congr Iff.rfl same.maps
  refine ⟨wf.counted, fun ino member => ?_, fun ino member d refer => ?_, ?_, fun d below used => ?_⟩
  · obtain ⟨din, at_ino, _⟩ := wf.dinAt member
    exact ⟨din, at_ino⟩
  · rcases (refers ino member d).mp refer with rfl | own
    · exact (wf.self _ member).1
    · exact (wf.sound ino member).maps_used own
  · refine List.nodup_flatMap.mpr ⟨fun ino member => ?_, ?_⟩
    · obtain ⟨din, at_ino, same⟩ := wf.dinAt member
      exact references_nodup at_ino (same.sound (wf.sound ino member)) fun maps =>
        (wf.self ino member).2 (same.maps.mp maps)
    · refine wf.distinct.imp_of_mem fun {ino other} member member' differ d refer refer' => ?_
      exact differ (wf.apart ino member other member' d ((refers ino member d).mp refer)
        ((refers other member' d).mp refer'))
  · rcases wf.owned d below used with fixed | ⟨ino, member, own⟩
    · exact .inl fixed
    · exact .inr ⟨ino, member, (refers ino member d).mpr own⟩

/-! ## Calls on one file of a volume -/

/-- The blocks that a write must not land on: inodes, indirect blocks and directories. -/
def Guarded (inodes : List Nat) (dins : Nat → DiskInode) (fs : SfsFs) (d : Nat) : Prop :=
  d ∈ inodes ∨ Pinned inodes dins fs d

theorem node_maps (inode : Inode) : Maps (vol.node inode) d ↔ Maps (fileNode vol.fs inode.din) d :=
  Maps.congr ⟨rfl, rfl⟩ fun _ _ => rfl

/-- A map that did not change is sound as long as its blocks are in use. -/
theorem sound_transfer {fs' : SfsFs} (sound : Sound (fileNode fs din)) (mounted : Mounted fs')
    (map : ∀ i, fileBlock (fileNode fs' din) i = fileBlock (fileNode fs din) i)
    (used : ∀ d, Maps (fileNode fs din) d → InUse fs' d) : Sound (fileNode fs' din) := by
  refine ⟨mounted, FileType.noConfusion, sound.room, fun i below => ?_, fun i first j second same => ?_,
    fun i above inside => ?_, fun present => ⟨used _ (.inr ⟨present, rfl⟩), fun i below => ?_⟩⟩
  · rw [map]
    exact used _ (.inl ⟨i, below, rfl⟩)
  · rw [map, map] at same
    exact sound.apart i first j second same
  · rw [map]
    exact sound.unmapped i above inside
  · rw [map]
    exact (sound.indirect present).2 i below

theorem put_self (inode : Inode) (m : Node) : (vol.put ino inode m).inodes ino =
    some { inode with din := m.din, dirty := m.dirty } :=
  Function.update_self _ _ _

theorem put_other (inode : Inode) (m : Node) (differ : other ≠ ino) :
    (vol.put ino inode m).inodes other = vol.inodes other :=
  Function.update_of_ne differ _ _

/-- What another inode has is in use and not the file's. -/
theorem WellFormed.foreign (wf : WellFormed inodes dins vol) (at_ino : vol.inodes ino = some inode)
    (member : other ∈ inodes) (differ : other ≠ ino) (own : Owns vol.fs other (dins other) d) :
    vol.fs.freemap d = false ∧ ¬ Maps (vol.node inode) d := by
  obtain ⟨member', same, _⟩ := wf.loaded ino inode at_ino
  refine ⟨?_, fun maps => differ ?_⟩
  · rcases own with rfl | own
    · exact (wf.self _ member).1.2.2
    · exact ((wf.sound other member).maps_used own).2.2
  · exact wf.apart other member ino member' d own (.inr (same.maps.mp ((node_maps inode).mp maps)))

theorem WellFormed.inode_block (wf : WellFormed inodes dins vol) (at_ino : vol.inodes ino = some inode)
    (member : other ∈ inodes) : vol.fs.freemap other = false ∧ ¬ Maps (vol.node inode) other := by
  by_cases this : other = ino
  · obtain ⟨_, same, _⟩ := wf.loaded ino inode at_ino
    obtain ⟨used, own⟩ := wf.self other member
    rw [← this] at same
    exact ⟨used.2.2, fun maps => own (same.maps.mp ((node_maps inode).mp maps))⟩
  · exact wf.foreign at_ino member this (.inl rfl)

/-- A call on one file keeps its blocks apart from those of the others. -/
theorem WellFormed.local {m : Node} (wf : WellFormed inodes dins vol) (at_ino : vol.inodes ino = some inode)
    (file : inode.din.type = .file) (counted : Counted m.fs)
    (here : Local (fun d => vol.fs.freemap d = false ∧ ¬ Maps (vol.node inode) d) (Guarded inodes dins vol.fs)
      (vol.node inode) m) :
    WellFormed inodes (Function.update dins ino m.din) (vol.put ino inode m) := by
  obtain ⟨member, same, links⟩ := wf.loaded ino inode at_ino
  have type : m.din.type = .file := here.type.trans file
  have super : m.fs.blocks = vol.fs.blocks := here.super.1
  have at_own : Function.update dins ino m.din ino = m.din := Function.update_self _ _ _
  have at_other : ∀ {other : Nat}, other ≠ ino → Function.update dins ino m.din other = dins other :=
    fun differ => Function.update_of_ne differ _ _
  have used : ∀ d, (vol.fs.freemap d = false ∧ ¬ Maps (vol.node inode) d) → m.fs.freemap d = false :=
    fun d other => (here.used d).mpr (.inl other)
  -- the maps of the other inodes
  have map : ∀ other ∈ inodes, other ≠ ino → ∀ i,
      fileBlock (fileNode m.fs (dins other)) i = fileBlock (fileNode vol.fs (dins other)) i := by
    refine fun other member' differ => map_congr fun present => here.disk _ ?_ (.inr ⟨other, member', .inl ⟨present, rfl⟩⟩)
    exact wf.foreign at_ino member' differ (.inr (.inr ⟨present, rfl⟩))
  have maps : ∀ other ∈ inodes, other ≠ ino → ∀ d,
      Maps (fileNode m.fs (dins other)) d ↔ Maps (fileNode vol.fs (dins other)) d :=
    fun other member' differ d => Maps.congr ⟨rfl, rfl⟩ fun i _ => map other member' differ i
  have owns : ∀ other ∈ inodes, other ≠ ino → ∀ d,
      Owns m.fs other (dins other) d ↔ Owns vol.fs other (dins other) d :=
    fun other member' differ d => or_congr Iff.rfl (maps other member' differ d)
  -- the file and another inode share nothing
  have disjoint : ∀ other ∈ inodes, other ≠ ino → ∀ d, Owns m.fs ino m.din d → Owns m.fs other (dins other) d → False := by
    intro other member' differ d own own'
    have own' := (owns other member' differ d).mp own'
    rcases own with rfl | maps
    · exact differ (wf.apart other member' d member d own' (.inl rfl))
    · exact here.apart d (wf.foreign at_ino member' differ own') maps
  refine ⟨counted, wf.distinct, wf.root, ?_, ?_, ?_, ?_, ?_, ?_, ?_⟩
  · intro other found at_found
    by_cases this : other = ino
    · subst this
      rw [put_self] at at_found
      obtain rfl := Option.some.inj at_found
      rw [at_own]
      exact ⟨member, .refl _, links⟩
    · rw [put_other _ _ this] at at_found
      rw [at_other this]
      exact wf.loaded other found at_found
  · intro other member' which
    have differ : other ≠ ino := by
      rintro rfl
      rcases which with absent | dir
      · rw [put_self] at absent
        cases absent
      · rw [at_own, type] at dir
        cases dir
    rw [put_other _ _ differ, at_other differ] at which
    obtain ⟨read, rest⟩ := wf.stored other member' which
    refine ⟨read, ?_⟩
    rw [at_other differ, show (vol.put ino inode m).fs.disk other = vol.fs.disk other from
      here.disk other (wf.inode_block at_ino member') (.inl member')]
    exact rest
  · intro other member'
    by_cases this : other = ino
    · subst this
      rw [at_own]
      exact here.sound.congr rfl rfl type.symm ⟨rfl, rfl⟩ rfl fun _ => rfl
    · rw [at_other this]
      have sound := wf.sound other member'
      refine sound_transfer sound here.sound.mounted (map other member' this) fun d maps => ?_
      obtain ⟨nonzero, below, _⟩ := sound.maps_used maps
      exact ⟨nonzero, super ▸ below, used d (wf.foreign at_ino member' this (.inr maps))⟩
  · intro other member'
    obtain ⟨in_use, own⟩ := wf.self other member'
    have block := wf.inode_block at_ino member'
    refine ⟨⟨in_use.1, super ▸ in_use.2.1, used other block⟩, ?_⟩
    by_cases this : other = ino
    · subst this
      rw [at_own]
      exact here.apart other block
    · rw [at_other this]
      exact fun now => own ((maps other member' this other).mp now)
  · intro other member' third member'' d own own'
    by_cases this : other = ino
    · by_cases that : third = ino
      · rw [this, that]
      · subst this
        rw [at_own] at own
        rw [at_other that] at own'
        exact absurd own' (disjoint third member'' that d own)
    · rw [at_other this] at own
      by_cases that : third = ino
      · subst that
        rw [at_own] at own'
        exact absurd own (disjoint other member' this d own')
      · rw [at_other that] at own'
        exact wf.apart other member' third member'' d ((owns other member' this d).mp own)
          ((owns third member'' that d).mp own')
  · intro d below marked
    rcases (here.used d).mp marked with ⟨before, own⟩ | maps
    · have below : d < vol.fs.blocks := super ▸ below
      rcases wf.owned d below before with fixed | ⟨other, member', owned⟩
      · refine .inl ?_
        rw [Fixed, show (vol.put ino inode m).fs.blocks = vol.fs.blocks from super]
        exact fixed
      · refine .inr ⟨other, member', ?_⟩
        by_cases this : other = ino
        · subst this
          rcases owned with rfl | maps
          · exact .inl rfl
          · exact absurd ((node_maps inode).mpr (same.maps.mpr maps)) own
        · rw [at_other this]
          exact (owns other member' this d).mpr owned
    · refine .inr ⟨ino, member, .inr ?_⟩
      rw [at_own]
      exact maps
  · intro dir member' is_dir slot below
    have differ : dir ≠ ino := by
      rintro rfl
      rw [at_own, type] at is_dir
      cases is_dir
    rw [at_other differ] at is_dir below ⊢
    have data : Maps (fileNode vol.fs (dins dir)) (fileBlock (fileNode vol.fs (dins dir)) slot) :=
      .inl ⟨slot, below, rfl⟩
    have kept := here.disk _ (wf.foreign at_ino member' differ (.inr data))
      (.inr ⟨dir, member', .inr ⟨is_dir, slot, below, rfl⟩⟩)
    rw [show fileBlock (fileNode (vol.put ino inode m).fs (dins dir)) slot = _ from map dir member' differ slot,
      show (vol.put ino inode m).fs.disk _ = _ from kept]
    exact wf.entries dir member' is_dir slot below

end Ucore.Sfs
