import Ucore.SfsSizeProofs

/-! A call on one file and the blocks of everything else on the disk: they stay
in use, the file takes free blocks and gives its own back, and what is marked is
what the others and the file have. Whole blocks of a write may land on other
blocks; `guarded` are those where they must not. -/
namespace Ucore.Sfs
open Call

variable {sfs : SfsFs} {node origin m after : Node} {ino index pos size blkoff nblks alen d : Nat} {ret : Int}
  {write : Bool} {outcome : Except Int Unit} {others guarded : Nat → Prop}

/-! ## Counting -/

/-- The superblock counts the free bits of the freemap. -/
def Counted (sfs : SfsFs) : Prop := sfs.unusedBlocks = (freeSet sfs).card

theorem freeSet_take (ino : Nat) {m : SfsFs} (blocks : m.blocks = sfs.blocks)
    (marked : m.freemap = Function.update sfs.freemap ino false) : freeSet m = (freeSet sfs).erase ino := by
  ext d
  rw [mem_freeSet, Finset.mem_erase, mem_freeSet, blocks, marked]
  by_cases same : d = ino
  · rw [same, Function.update_self]
    simp
  · rw [Function.update_of_ne same]
    simp [same]

theorem freeSet_give {ino : Nat} (below : ino < freemapBits sfs.blocks) {m : SfsFs}
    (blocks : m.blocks = sfs.blocks) (marked : m.freemap = Function.update sfs.freemap ino true) :
    freeSet m = insert ino (freeSet sfs) := by
  ext d
  rw [mem_freeSet, Finset.mem_insert, mem_freeSet, blocks, marked]
  by_cases same : d = ino
  · rw [same, Function.update_self]
    simp [below]
  · rw [Function.update_of_ne same]
    simp [same]

theorem bitmapAlloc_member {m : SfsFs} (ran : Returns bitmapAlloc sfs ino m) : ino ∈ freeSet sfs := by
  obtain ⟨_, _, got, rest⟩ := returns_bind.mp ran
  obtain ⟨rfl, rfl⟩ := returns_gets.mp got
  split at rest
  · exact absurd rest (not_returns_fail _)
  rename_i index at_index
  obtain ⟨_, _, _, rest⟩ := returns_bind.mp rest
  obtain ⟨rfl, _⟩ := returns_pure.mp rest
  exact mem_freeSet.mpr ⟨List.mem_range.mp (List.mem_of_find?_eq_some at_index), List.find?_some at_index⟩

theorem disk0Io_counted (offset : Nat) (data : Option Block) : Keeps Counted (disk0Io offset data) := by
  unfold disk0Io
  refine keeps_bind (keeps_gets _) fun sfs => ?_
  split
  · exact keeps_fail _
  · refine keeps_bind (keeps_modify fun _ counted => counted) fun _ => ?_
    split
    · exact keeps_fail _
    · cases data with
      | none => exact keeps_pure
      | some data => exact keeps_bind (keeps_modify fun _ counted => counted) fun _ => keeps_pure

/-- A mark in the freemap and the count change together. -/
theorem blockAlloc_counted_keeps : Keeps Counted blockAlloc := by
  have write : ∀ blkno check block, Keeps Counted (wblockNolock blkno check block) :=
    fun _ _ _ => keeps_bind (keeps_bind (keeps_gets _) fun _ => keeps_bind (keeps_assert _) fun _ =>
      disk0Io_counted _ _) fun _ => keeps_pure
  -- the state behind the marking
  have marked : ∀ sfs, Counted sfs → ∀ ino between, Returns bitmapAlloc sfs ino between → 0 < between.unusedBlocks →
      Counted { between with unusedBlocks := between.unusedBlocks - 1, superDirty := true } := by
    intro sfs counted ino between alloc positive
    have member := bitmapAlloc_member alloc
    obtain ⟨_, rfl⟩ := bitmapAlloc_returns alloc
    have taken : freeSet { sfs with
        freemap := Function.update sfs.freemap ino false
        unusedBlocks := sfs.unusedBlocks - 1
        superDirty := true } = (freeSet sfs).erase ino := freeSet_take ino rfl rfl
    change sfs.unusedBlocks - 1 = _
    rw [taken, Finset.card_erase_of_mem member, ← counted]
  have rest : ∀ ino, Keeps Counted (do
      let inuse ← blockInuse ino
      assert inuse
      clearBlock ino 1
      return ino) := fun ino =>
    keeps_bind Stable.blockInuse fun _ => keeps_bind (keeps_assert _) fun _ =>
      keeps_bind (keeps_bind (write _ _ _) fun _ => keeps_pure) fun _ => keeps_pure
  rw [keeps_iff]
  constructor
  · intro sfs counted ino m ran
    unfold blockAlloc at ran
    obtain ⟨_, between, alloc, more⟩ := returns_bind.mp ran
    obtain ⟨_, _, got, more⟩ := returns_bind.mp more
    obtain ⟨rfl, rfl⟩ := returns_gets.mp got
    obtain ⟨_, _, checked, more⟩ := returns_bind.mp more
    obtain ⟨positive, rfl⟩ := returns_assert.mp checked
    obtain ⟨_, _, stored, more⟩ := returns_bind.mp more
    obtain rfl := returns_modify.mp stored
    exact (keeps_iff.mp (rest _)).1 _ (marked _ counted _ _ alloc (of_decide_eq_true positive)) _ _ more
  · intro sfs counted ret m failed
    unfold blockAlloc at failed
    rcases fails_bind.mp failed with failed | ⟨_, between, alloc, more⟩
    · rwa [bitmapAlloc_fails failed]
    rcases fails_bind.mp more with failed | ⟨_, _, got, more⟩
    · exact absurd failed not_fails_gets
    obtain ⟨rfl, rfl⟩ := returns_gets.mp got
    rcases fails_bind.mp more with failed | ⟨_, _, checked, more⟩
    · exact absurd failed not_fails_assert
    obtain ⟨positive, rfl⟩ := returns_assert.mp checked
    rcases fails_bind.mp more with failed | ⟨_, _, stored, more⟩
    · exact absurd failed not_fails_modify
    obtain rfl := returns_modify.mp stored
    exact (keeps_iff.mp (rest _)).2 _ (marked _ counted _ _ alloc (of_decide_eq_true positive)) _ _ more

theorem counted_stable : Stable Counted := by
  refine ⟨disk0Io_counted, blockAlloc_counted_keeps, fun ino => ?_⟩
  rw [keeps_iff]
  refine ⟨fun sfs counted _ m ran => ?_, fun _ _ _ _ failed => absurd failed not_fails_blockFree⟩
  obtain ⟨⟨_, below, used⟩, rfl⟩ := blockFree_returns ran
  have outside : ino ∉ freeSet sfs := fun member => by
    rw [(mem_freeSet.mp member).2] at used
    cases used
  have given : freeSet { sfs with
      freemap := Function.update sfs.freemap ino true
      unusedBlocks := sfs.unusedBlocks + 1
      superDirty := true } = insert ino (freeSet sfs) :=
    freeSet_give (below_freemapBits below) rfl rfl
  change sfs.unusedBlocks + 1 = _
  rw [given, Finset.card_insert_of_notMem outside, ← counted]

/-! ## The blocks of a file and those of others -/

/-- A data block of the file, or its indirect block. -/
def Maps (node : Node) (d : Nat) : Prop :=
  (∃ i < node.din.blocks, fileBlock node i = d) ∨ (node.din.indirect ≠ 0 ∧ node.din.indirect = d)

theorem Maps.congr (din : after.din.blocks = node.din.blocks ∧ after.din.indirect = node.din.indirect)
    (map : ∀ i < node.din.blocks, fileBlock after i = fileBlock node i) : Maps after d ↔ Maps node d := by
  unfold Maps
  rw [din.1, din.2]
  refine or_congr ⟨?_, ?_⟩ Iff.rfl
  · rintro ⟨i, below, same⟩
    exact ⟨i, below, (map i below).symm.trans same⟩
  · rintro ⟨i, below, same⟩
    exact ⟨i, below, (map i below).trans same⟩

theorem Sound.maps_used (sound : Sound node) (maps : Maps node d) : InUse node.fs d := by
  rcases maps with ⟨i, below, rfl⟩ | ⟨present, rfl⟩
  · exact sound.data i below
  · exact (sound.indirect present).1

/-- A file in the course of a call that began in `origin`, and the blocks of others. -/
structure Local (others guarded : Nat → Prop) (origin m : Node) : Prop where
  sound : Sound m
  super : m.fs.blocks = origin.fs.blocks ∧ m.fs.dBlocks = origin.fs.dBlocks
  type : m.din.type = origin.din.type
  used : ∀ d, m.fs.freemap d = false ↔ others d ∨ Maps m d
  apart : ∀ d, others d → ¬ Maps m d
  disk : ∀ d, others d → guarded d → m.fs.disk d = origin.fs.disk d

namespace Local

theorem start (sound : Sound node) :
    Local (fun d => node.fs.freemap d = false ∧ ¬ Maps node d) guarded node node := by
  refine ⟨sound, ⟨rfl, rfl⟩, rfl, fun d => ⟨fun used => ?_, ?_⟩, fun d other => other.2, fun _ _ _ => rfl⟩
  · by_cases own : Maps node d
    · exact .inr own
    · exact .inl ⟨used, own⟩
  · rintro (other | own)
    · exact other.1
    · exact (sound.maps_used own).2.2

theorem congr (here : Local others guarded origin m) (din : after.din.blocks = m.din.blocks ∧
      after.din.indirect = m.din.indirect ∧ after.din.type = m.din.type)
    (super : after.fs.blocks = m.fs.blocks ∧ after.fs.dBlocks = m.fs.dBlocks)
    (freemap : after.fs.freemap = m.fs.freemap) (map : ∀ i, fileBlock after i = fileBlock m i)
    (disk : ∀ d, others d → guarded d → after.fs.disk d = m.fs.disk d) :
    Local others guarded origin after := by
  have maps : ∀ d, Maps after d ↔ Maps m d := fun d =>
    Maps.congr ⟨din.1, din.2.1⟩ fun i _ => map i
  refine ⟨here.sound.congr din.1 din.2.1 din.2.2 super freemap map,
    ⟨super.1.trans here.super.1, super.2.trans here.super.2⟩, din.2.2.trans here.type, fun d => ?_,
    fun d other => ?_, fun d other guard => (disk d other guard).trans (here.disk d other guard)⟩
  · rw [freemap, maps]
    exact here.used d
  · rw [maps]
    exact here.apart d other

theorem faults {answers : Nat → Nat → Bool → Option Int} (here : Local others guarded origin m) :
    Local others guarded origin { m with fs := { m.fs with faults := answers } } :=
  here.congr ⟨rfl, rfl, rfl⟩ ⟨rfl, rfl⟩ rfl (fun _ => rfl) fun _ _ _ => rfl

theorem unmapped (here : Local others guarded origin m) (unmapped : Unmapped m after) :
    Local others guarded origin after := by
  have map := unmapped.map here.sound
  obtain ⟨kept, fs, rfl⟩ := unmapped
  exact here.congr ⟨rfl, rfl, rfl⟩ kept.super kept.freemap map
    fun d other _ => kept.disk d ((here.used d).mpr (.inl other))

/-- One block more. -/
theorem grown (here : Local others guarded origin m) (grown : Grown m ino after) :
    Local others guarded origin after := by
  have sound := grown.sound here.sound
  have blocks := grown.blocks
  -- a block of others was in use before
  have old : ∀ d, others d → m.fs.freemap d = false := fun d other => (here.used d).mpr (.inl other)
  have maps_old : ∀ d, Maps after d → Maps m d ∨ m.fs.freemap d = true := by
    rintro d (⟨i, below, rfl⟩ | ⟨present, rfl⟩)
    · by_cases last : i = m.din.blocks
      · rw [last, grown.map_new]
        exact .inr grown.fresh
      · exact .inl (.inl ⟨i, by omega, (grown.map_old (by omega)).symm⟩)
    · rcases grown.indirect with same | ⟨_, fresh, _⟩
      · exact .inl (.inr ⟨same ▸ present, same.symm⟩)
      · exact .inr fresh
  have apart : ∀ d, others d → ¬ Maps after d := by
    intro d other maps
    rcases maps_old d maps with maps | free
    · exact here.apart d other maps
    · rw [old d other] at free
      cases free
  refine ⟨sound, ⟨grown.super.1.trans here.super.1, grown.super.2.trans here.super.2⟩,
    grown.size.2.trans here.type, fun d => ⟨fun used => ?_, ?_⟩, apart, fun d other guard => ?_⟩
  · cases before : m.fs.freemap d with
    | false =>
      rcases (here.used d).mp before with other | ⟨i, below, rfl⟩ | ⟨present, rfl⟩
      · exact .inl other
      · exact .inr (.inl ⟨i, by omega, grown.map_old below⟩)
      · rcases grown.indirect with same | ⟨absent, _⟩
        · exact .inr (.inr ⟨by rwa [same], same⟩)
        · exact absurd absent present
    | true =>
      rcases grown.taken d before with free | rfl | ⟨rfl, other⟩
      · rw [free] at used
        cases used
      · exact .inr (.inl ⟨m.din.blocks, by omega, grown.map_new⟩)
      · refine .inr (.inr ⟨?_, rfl⟩)
        rcases grown.indirect with same | ⟨_, _, held, _⟩
        · exact absurd same other
        · exact held.1
  · rintro (other | maps)
    · exact grown.freemap.2 d (old d other)
    · exact (sound.maps_used maps).2.2
  · refine (grown.disk d ?_ fun nonzero same => ?_).trans (here.disk d other guard)
    · rintro rfl
      have used := old d other
      rw [grown.fresh] at used
      cases used
    · exact apart d other (.inr ⟨same ▸ nonzero, same.symm⟩)

/-- One block less. -/
theorem shrunk (here : Local others guarded origin m) (shrunk : Shrunk m after) :
    Local others guarded origin after := by
  have sound := shrunk.sound here.sound
  have blocks := shrunk.blocks
  have some_blocks := shrunk.some_blocks
  have maps_old : ∀ d, Maps after d → Maps m d ∧ d ≠ fileBlock m (m.din.blocks - 1) := by
    rintro d (⟨i, below, rfl⟩ | ⟨present, rfl⟩)
    · rw [shrunk.map_old (by omega) here.sound]
      refine ⟨.inl ⟨i, by omega, rfl⟩, fun same => ?_⟩
      have last := here.sound.apart i (by omega) _ (by omega) same
      omega
    · rw [shrunk.indirect] at present ⊢
      exact ⟨.inr ⟨present, rfl⟩, ((here.sound.indirect present).2 _ (by omega)).symm⟩
  have apart : ∀ d, others d → ¬ Maps after d := fun d other maps => here.apart d other (maps_old d maps).1
  have last_own : Maps m (fileBlock m (m.din.blocks - 1)) := .inl ⟨_, by omega, rfl⟩
  refine ⟨sound, ⟨shrunk.super.1.trans here.super.1, shrunk.super.2.trans here.super.2⟩,
    shrunk.size.2.trans here.type, fun d => ⟨fun used => ?_, ?_⟩, apart, fun d other guard => ?_⟩
  · have other : d ≠ fileBlock m (m.din.blocks - 1) := by
      rintro rfl
      rw [shrunk.freemap, Function.update_self] at used
      cases used
    rw [shrunk.freemap, Function.update_of_ne other] at used
    rcases (here.used d).mp used with others_block | ⟨i, below, rfl⟩ | ⟨present, rfl⟩
    · exact .inl others_block
    · have not_last : i ≠ m.din.blocks - 1 := fun same => other (by rw [same])
      exact .inr (.inl ⟨i, by omega, shrunk.map_old (by omega) here.sound⟩)
    · exact .inr (.inr ⟨by rwa [shrunk.indirect], shrunk.indirect⟩)
  · rintro (other | maps)
    · have apart_last : d ≠ fileBlock m (m.din.blocks - 1) := by
        rintro rfl
        exact here.apart _ other last_own
      rw [shrunk.freemap, Function.update_of_ne apart_last]
      exact (here.used d).mpr (.inl other)
    · exact (sound.maps_used maps).2.2
  · refine (shrunk.disk d fun nonzero same => ?_).trans (here.disk d other guard)
    exact here.apart d other (.inr ⟨same ▸ nonzero, same.symm⟩)

end Local

/-! ## Growing -/

/-- A call that only adds blocks, on a device that takes every write to a block that was
free at its start. -/
structure Growing (others guarded : Nat → Prop) (origin m : Node) : Prop extends
    Local others guarded origin m where
  kept : ∀ d, origin.fs.freemap d = false → m.fs.freemap d = false
  clears : Accepts (fun d write => origin.fs.freemap d = true ∧ write = true) m.fs
  more : origin.din.blocks ≤ m.din.blocks
  map : ∀ i < origin.din.blocks, fileBlock m i = fileBlock origin i

/-- No block has been added. -/
def Still (origin m : Node) : Prop :=
  m.din.blocks = origin.din.blocks ∧ m.din.indirect = origin.din.indirect

namespace Growing

theorem start (sound : Sound node) (clears : ClearsFree node.fs) :
    Growing (fun d => node.fs.freemap d = false ∧ ¬ Maps node d) guarded node node :=
  ⟨.start sound, fun _ used => used, clears, Nat.le_refl _, fun _ _ => rfl⟩

theorem clears_now (growing : Growing others guarded origin m) : ClearsFree m.fs := by
  rintro n d write ⟨free, writes⟩
  refine growing.clears n d write ⟨?_, writes⟩
  cases before : origin.fs.freemap d with
  | true => rfl
  | false =>
    rw [growing.kept d before] at free
    cases free

/-- `sfs_bmap_load_nolock` and what is done with the block. -/
theorem loaded {op : Nat → Call Node Unit} (growing : Growing others guarded origin m)
    (ran : Returns (attempt (bmapLoad index >>= op)) m outcome after) :
    (Growing others guarded origin after ∧ (Still origin m → Still origin after)) ∨
    ∃ between, Growing others guarded origin between ∧ index < between.din.blocks ∧
      (Still origin m → index < origin.din.blocks → Still origin between) ∧
      Returns (attempt (op (fileBlock between index))) between outcome after := by
  have loads : ∀ ino between, Returns (bmapLoad index) m ino between →
      ino = fileBlock between index ∧ index < between.din.blocks ∧
        Growing others guarded origin between ∧
        (Still origin m → index < origin.din.blocks → Still origin between) := by
    intro ino between load
    have clears := accepts_stable.bmapLoad _ growing.clears _ _ load
    rcases bmapLoad_returns growing.sound load with ⟨inside, rfl, faults, rfl⟩ | ⟨rfl, grown⟩
    · exact ⟨rfl, inside, ⟨growing.toLocal.faults, growing.kept, clears, growing.more, growing.map⟩,
        fun still _ => still⟩
    · have blocks := grown.blocks
      have more := growing.more
      refine ⟨grown.map_new.symm, by omega, ⟨growing.toLocal.grown grown,
        fun d used => grown.freemap.2 d (growing.kept d used), clears, by omega, fun i below => ?_⟩,
        fun still inside => ?_⟩
      · rw [grown.map_old (by omega), growing.map i below]
      · have same := still.1
        omega
  cases outcome with
  | ok done =>
    obtain ⟨ino, between, load, moved⟩ := returns_bind.mp (returns_attempt_ok.mp ran)
    obtain ⟨rfl, inside, growing, still⟩ := loads ino between load
    exact .inr ⟨between, growing, inside, still, returns_attempt_ok.mpr moved⟩
  | error ret =>
    rcases fails_bind.mp (returns_attempt_error.mp ran) with failed | ⟨ino, between, load, failed⟩
    · have clears := accepts_stable.bmapLoad _ growing.clears _ _ failed
      have unmapped := (bmapLoad_fails growing.sound.mounted growing.clears_now failed).1
      have map := unmapped.map growing.sound
      have here := growing.toLocal.unmapped unmapped
      obtain ⟨kept, fs, rfl⟩ := unmapped
      refine .inl ⟨⟨here, fun d used => ?_, clears, growing.more, fun i below => ?_⟩, fun still => still⟩
      · rw [kept.freemap]
        exact growing.kept d used
      · rw [map, growing.map i below]
    · obtain ⟨rfl, inside, growing, still⟩ := loads ino between load
      exact .inr ⟨between, growing, inside, still, returns_attempt_error.mpr failed⟩

theorem enlarge {n : Nat} (growing : Growing others guarded origin m)
    (ran : Returns (attempt (enlarge index n)) m outcome after) : Growing others guarded origin after := by
  induction n generalizing m index with
  | zero =>
    cases outcome with
    | ok done =>
      obtain ⟨_, rfl⟩ := returns_pure.mp (returns_attempt_ok.mp ran)
      exact growing
    | error ret => exact absurd (returns_attempt_error.mp ran) not_fails_pure
  | succ n ih =>
    rcases growing.loaded ran with ⟨growing, _⟩ | ⟨between, growing, _, _, rest⟩
    · exact growing
    · exact ih growing rest

end Growing

/-! ## Transfers -/

/-- A transfer touches its blocks, and no inode. -/
structure Carried (blocks : Nat → Prop) (origin m : Node) : Prop where
  fs : Touched blocks origin.fs m.fs
  din : m.din = origin.din

section
variable {blocks : Nat → Prop}

theorem Carried.refl : Carried blocks node node := ⟨.refl, rfl⟩

theorem Carried.onFs {α : Type} {call : Call SfsFs α} (touched : Keeps (Touched blocks origin.fs) call) :
    Keeps (Carried blocks origin) (onFs call) :=
  keeps_within touched (fun _ carried => carried.fs) fun _ _ carried touched => ⟨touched, carried.din⟩

theorem Carried.onNode {update : Node → Node}
    (same : ∀ node, (update node).fs = node.fs ∧ (update node).din = node.din) :
    Keeps (Carried blocks origin) (modify update) :=
  keeps_modify fun node carried => ⟨by rw [(same node).1]; exact carried.fs, (same node).2.trans carried.din⟩

theorem rbuf_touched {len blkno offset : Nat} (mounted : Mounted origin.fs) :
    Keeps (Touched blocks origin.fs) (rbuf len blkno offset) :=
  keeps_bind (keeps_assert _) fun _ => rwblockNolock_touched mounted fun never => by cases never

theorem bufOp_carried (blocks : Nat → Prop) (mounted : Mounted origin.fs) (inside : blocks ino) :
    Keeps (Carried blocks origin) (bufOp write pos size ino blkoff) := by
  cases write with
  | true =>
    exact keeps_bind (keeps_gets _) fun _ => keeps_bind (.onFs (wbuf_touched mounted inside)) fun _ =>
      .onNode fun _ => ⟨rfl, rfl⟩
  | false =>
    exact keeps_bind (.onFs (rbuf_touched mounted)) fun _ =>
      keeps_bind (.onNode fun _ => ⟨rfl, rfl⟩) fun _ => .onNode fun _ => ⟨rfl, rfl⟩

theorem blockTransfer_carried (mounted : Mounted origin.fs) (inside : write = true → blocks ino) :
    Keeps (Carried blocks origin) (blockTransfer write pos ino) := by
  cases write with
  | true =>
    exact keeps_bind (keeps_gets _) fun _ =>
      keeps_bind (.onFs (wblockNolock_touched mounted (inside rfl))) fun _ => .onNode fun _ => ⟨rfl, rfl⟩
  | false =>
    refine keeps_bind (.onFs ?_) fun _ =>
      keeps_bind (.onNode fun _ => ⟨rfl, rfl⟩) fun _ => .onNode fun _ => ⟨rfl, rfl⟩
    exact rwblockNolock_touched mounted fun never => by cases never

theorem blockOp_carried (blocks : Nat → Prop) (mounted : Mounted origin.fs)
    (inside : write = true → ∀ j < nblks, blocks (ino + j)) :
    Keeps (Carried blocks origin) (blockOp write pos ino nblks) := by
  induction nblks generalizing pos ino with
  | zero => exact keeps_pure
  | succ nblks ih =>
    refine keeps_bind (blockTransfer_carried mounted fun writing => inside writing 0 (by omega)) fun _ =>
      ih fun writing j below => ?_
    rw [Nat.add_assoc, Nat.add_comm 1 j]
    exact inside writing (j + 1) (by omega)

/-- Data on blocks that are not guarded, nor the file's indirect block. -/
theorem Growing.carried (growing : Growing others guarded origin m) (carried : Carried blocks m after)
    (accepts : Accepts (fun d write => origin.fs.freemap d = true ∧ write = true) after.fs)
    (free_of : ∀ d, blocks d → others d → ¬ guarded d)
    (avoids : m.din.indirect ≠ 0 → ¬ blocks m.din.indirect) : Growing others guarded origin after := by
  have map := fileBlock_congr carried.din fun present => carried.fs.disk _ (avoids present)
  refine ⟨growing.toLocal.congr (by rw [carried.din]; exact ⟨rfl, rfl, rfl⟩) carried.fs.super
    carried.fs.freemap map fun d other guard => ?_, fun d used => ?_, accepts, ?_, fun i below => ?_⟩
  · exact carried.fs.disk d fun inside => free_of d inside other guard
  · rw [carried.fs.freemap]
    exact growing.kept d used
  · rw [carried.din]
    exact growing.more
  · rw [map, growing.map i below]

theorem Carried.still (carried : Carried blocks m after) (still : Still origin m) : Still origin after := by
  rw [Still, carried.din]
  exact still

end

/-- The whole blocks of a write that come after its first one exist, and none of the disk
blocks written for them is guarded. -/
def LandsFree (guarded : Nat → Prop) (node : Node) (first nblks : Nat) : Prop :=
  ∀ j, 0 < j → j < nblks → first + j < node.din.blocks ∧ ¬ guarded (fileBlock node first + j)

namespace Growing
variable {offset endpos blkno : Nat}

theorem buf (growing : Growing others guarded origin m)
    (ran : Returns (attempt (bmapLoad index >>= fun ino => bufOp write pos size ino blkoff)) m
      outcome after) :
    Growing others guarded origin after ∧
      (Still origin m → index < origin.din.blocks → Still origin after) := by
  rcases growing.loaded ran with ⟨growing, still⟩ | ⟨between, growing, inside, still, tried⟩
  · exact ⟨growing, fun before _ => still before⟩
  · have carried := keeps_attempt (bufOp_carried (fun d => d = fileBlock between index)
      growing.sound.mounted rfl) between .refl _ _ tried
    have accepts := keeps_attempt accepts_stable.bufOp between growing.clears _ _ tried
    refine ⟨growing.carried carried accepts ?_ ?_, fun before below => carried.still (still before below)⟩
    · rintro d rfl other
      exact absurd (.inl ⟨index, inside, rfl⟩) (growing.apart _ other)
    · exact fun _ same => growing.sound.data_ne_indirect inside same.symm

theorem run (growing : Growing others guarded origin m)
    (ran : Returns (attempt (bmapLoad index >>= fun ino => blockOp write pos ino nblks)) m outcome after)
    (lands : write = true → LandsFree guarded origin index nblks)
    (own : origin.din.indirect ≠ 0 → guarded origin.din.indirect)
    (still : write = true → 1 < nblks → Still origin m) : Growing others guarded origin after := by
  rcases growing.loaded ran with ⟨growing, _⟩ | ⟨between, growing, inside, later, tried⟩
  · exact growing
  have carried := keeps_attempt (blockOp_carried
    (fun d => write = true ∧ ∃ j < nblks, d = fileBlock between index + j) growing.sound.mounted
    fun writing j below => ⟨writing, j, below, rfl⟩) between .refl _ _ tried
  have accepts := keeps_attempt accepts_stable.blockOp between growing.clears _ _ tried
  -- a block behind the first one
  have behind : ∀ j, write = true → j ≠ 0 → j < nblks → ¬ guarded (fileBlock between index + j) ∧
      between.din.indirect = origin.din.indirect := by
    intro j writing first below
    obtain ⟨exists_block, free⟩ := lands writing j (by omega) below
    rw [growing.map index (by omega)]
    exact ⟨free, (later (still writing (by omega)) (by omega)).2⟩
  refine growing.carried carried accepts ?_ ?_
  · rintro d ⟨writing, j, below, rfl⟩ other
    by_cases first : j = 0
    · rw [first] at other
      exact absurd (.inl ⟨index, inside, rfl⟩) (growing.apart _ other)
    · exact (behind j writing first below).1
  · rintro present ⟨writing, j, below, same⟩
    by_cases first : j = 0
    · rw [first] at same
      exact growing.sound.data_ne_indirect inside same.symm
    · obtain ⟨free, indirect⟩ := behind j writing first below
      rw [indirect] at present same
      rw [← same] at free
      exact free (own present)

theorem finish {result : Nat × Except Int Unit} (growing : Growing others guarded origin m)
    (ran : Returns (finish offset alen outcome) m result after) : Growing others guarded origin after := by
  obtain ⟨_, dirty, rfl⟩ := finish_returns ran
  exact ⟨growing.toLocal.congr ⟨rfl, rfl, rfl⟩ ⟨rfl, rfl⟩ rfl (fun _ => rfl) fun _ _ _ => rfl, growing.kept,
    growing.clears, growing.more, growing.map⟩

theorem tail {result : Nat × Except Int Unit} (growing : Growing others guarded origin m)
    (ran : Returns (ioTail write offset endpos pos blkno) m result after) :
    Growing others guarded origin after := by
  unfold ioTail at ran
  dsimp only at ran
  split at ran
  · obtain ⟨outcome, _, tried, rest⟩ := returns_bind.mp ran
    have growing := (growing.buf tried).1
    cases outcome <;> exact growing.finish rest
  · exact growing.finish ran

theorem blocks_part {result : Nat × Except Int Unit} (growing : Growing others guarded origin m)
    (ran : Returns (ioBlocks write offset endpos pos blkno nblks) m result after)
    (lands : write = true → LandsFree guarded origin blkno nblks)
    (own : origin.din.indirect ≠ 0 → guarded origin.din.indirect)
    (still : write = true → 1 < nblks → Still origin m) : Growing others guarded origin after := by
  unfold ioBlocks at ran
  split at ran
  · obtain ⟨outcome, _, tried, rest⟩ := returns_bind.mp ran
    have growing := growing.run tried lands own still
    cases outcome with
    | error ret => exact growing.finish rest
    | ok done => exact growing.tail rest
  · exact growing.tail ran

theorem head {result : Nat × Except Int Unit} (growing : Growing others guarded origin origin)
    (ran : Returns (ioHead write offset endpos) origin result after)
    (lands : write = true → LandsFree guarded origin ((offset + (blksize - 1)) / blksize)
      (endpos / blksize - (offset + (blksize - 1)) / blksize))
    (own : origin.din.indirect ≠ 0 → guarded origin.din.indirect) :
    Growing others guarded origin after := by
  unfold ioHead at ran
  by_cases aligned : offset % blksize = 0
  · rw [if_neg (by simpa using aligned)] at ran
    have first : (offset + (blksize - 1)) / blksize = offset / blksize := by
      simp only [blksize] at *
      omega
    rw [first] at lands
    exact growing.blocks_part ran lands own fun _ _ => ⟨rfl, rfl⟩
  · rw [if_pos (by simpa using aligned)] at ran
    have first : (offset + (blksize - 1)) / blksize = offset / blksize + 1 := by
      simp only [blksize] at *
      omega
    rw [first] at lands
    obtain ⟨outcome, _, tried, rest⟩ := returns_bind.mp ran
    obtain ⟨growing, still⟩ := growing.buf tried
    cases outcome with
    | error ret => exact growing.finish rest
    | ok done =>
      dsimp only at rest
      split at rest
      · exact growing.finish rest
      · rw [← Nat.sub_sub] at lands
        refine growing.blocks_part rest lands own fun writing several => still ⟨rfl, rfl⟩ ?_
        have exists_block := (lands writing 1 (by omega) several).1
        omega

end Growing

/-! ## Changes of the size -/

theorem Local.reduce {n : Nat} (here : Local others guarded origin m)
    (ran : Returns (attempt (reduce n)) m outcome after) : Local others guarded origin after := by
  induction n generalizing m with
  | zero =>
    cases outcome with
    | ok done =>
      obtain ⟨_, rfl⟩ := returns_pure.mp (returns_attempt_ok.mp ran)
      exact here
    | error ret => exact absurd (returns_attempt_error.mp ran) not_fails_pure
  | succ n ih =>
    cases outcome with
    | ok done =>
      obtain ⟨_, between, taken, rest⟩ := returns_bind.mp (returns_attempt_ok.mp ran)
      exact ih (here.shrunk (bmapTruncate_returns here.sound taken)) (returns_attempt_ok.mpr rest)
    | error ret =>
      rcases fails_bind.mp (returns_attempt_error.mp ran) with failed | ⟨_, between, taken, failed⟩
      · obtain ⟨⟨faults, rfl⟩, _⟩ := bmapTruncate_fails here.sound.mounted failed
        exact here.faults
      · exact ih (here.shrunk (bmapTruncate_returns here.sound taken)) (returns_attempt_error.mpr failed)

theorem resize_cases {tblks : Nat} (ran : Returns (attempt (resize tblks)) node outcome after) :
    (node.din.blocks < tblks ∧
      Returns (attempt (enlarge node.din.blocks (tblks - node.din.blocks))) node outcome after) ∨
    Returns (attempt (reduce (node.din.blocks - tblks))) node outcome after := by
  cases outcome with
  | ok done =>
    obtain ⟨_, _, got, rest⟩ := returns_bind.mp (returns_attempt_ok.mp ran)
    obtain ⟨rfl, rfl⟩ := returns_gets.mp got
    split at rest
    · rename_i longer
      exact .inl ⟨longer, returns_attempt_ok.mpr rest⟩
    · exact .inr (returns_attempt_ok.mpr rest)
  | error ret =>
    rcases resize_fails (returns_attempt_error.mp ran) with ⟨longer, failed⟩ | ⟨_, failed⟩
    · exact .inl ⟨longer, returns_attempt_error.mpr failed⟩
    · exact .inr (returns_attempt_error.mpr failed)

/-- A growing truncation needs a device that takes the clearing of new blocks. -/
theorem Local.truncfile {len : Int} (sound : Sound node)
    (clears : node.din.blocks < blocksFor len.toNat → ClearsFree node.fs)
    (ran : Returns (attempt (truncfile len)) node outcome after) :
    Local (fun d => node.fs.freemap d = false ∧ ¬ Maps node d) guarded node after := by
  have resized : ∀ {outcome m}, Returns (attempt (resize (blocksFor len.toNat))) node outcome m →
      Local (fun d => node.fs.freemap d = false ∧ ¬ Maps node d) guarded node m := by
    intro outcome m ran
    rcases resize_cases ran with ⟨longer, ran⟩ | ran
    · exact ((Growing.start sound (clears longer)).enlarge ran).toLocal
    · exact (Local.start sound).reduce ran
  cases outcome with
  | ok done =>
    have ran := returns_attempt_ok.mp ran
    unfold Sfs.truncfile at ran
    obtain ⟨_, _, got, rest⟩ := returns_bind.mp ran
    obtain ⟨rfl, rfl⟩ := returns_gets.mp got
    split at rest
    · exact absurd rest (not_returns_fail _)
    split at rest
    · obtain ⟨_, rfl⟩ := returns_assert.mp rest
      exact .start sound
    obtain ⟨_, m, resizing, rest⟩ := returns_bind.mp rest
    obtain ⟨_, _, got, rest⟩ := returns_bind.mp rest
    obtain ⟨rfl, rfl⟩ := returns_gets.mp got
    obtain ⟨_, _, checked, rest⟩ := returns_bind.mp rest
    obtain ⟨_, rfl⟩ := returns_assert.mp checked
    obtain rfl := returns_modify.mp rest
    exact (resized (returns_attempt_ok.mpr resizing)).congr ⟨rfl, rfl, rfl⟩ ⟨rfl, rfl⟩ rfl (fun _ => rfl)
      fun _ _ _ => rfl
  | error ret =>
    rcases truncfile_fails_resize (returns_attempt_error.mp ran) with rfl | ⟨_, _, _, failed⟩
    · exact .start sound
    · exact resized (returns_attempt_error.mpr failed)

end Ucore.Sfs
