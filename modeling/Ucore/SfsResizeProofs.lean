import Ucore.SfsFailures
import Ucore.SfsIoProofs

/-! Resizing a file, `sfs_truncfile` and `sfs_tryseek`. Both loops change one
block at a time and write the size at the end, so a failure between two blocks
leaves a file whose size and block count disagree. -/
namespace Ucore.Sfs
open Call

variable {sfs : SfsFs} {node m reached after : Node} {ino index more : Nat} {ret : Int}

/-! ## Taking a block away -/

/-- An entry of the indirect block is emptied and its block freed. -/
theorem bmapFreeSub_returns {after : SfsFs} {ent : Nat} {result : Unit} (mounted : Mounted sfs)
    (ran : Returns (bmapFreeSub ent index) sfs result after) :
    (loadU32 (sfs.disk ent) (index * 4) = 0 ∧ ∃ faults, after = { sfs with faults := faults }) ∨
    (loadU32 (sfs.disk ent) (index * 4) ≠ 0 ∧ ∃ faults, after = { sfs with
      faults := faults
      disk := Function.update sfs.disk ent (overlay (sfs.disk ent) (bytesU32 0) 4 (index * 4))
      freemap := Function.update sfs.freemap (loadU32 (sfs.disk ent) (index * 4)) true
      unusedBlocks := sfs.unusedBlocks + 1
      superDirty := true }) := by
  obtain ⟨_, _, tested, rest⟩ := returns_bind.mp ran
  obtain ⟨_, _, _, rfl⟩ := blockInuse_returns tested
  obtain ⟨_, _, checked, rest⟩ := returns_bind.mp rest
  obtain ⟨_, rfl⟩ := returns_assert.mp checked
  obtain ⟨_, _, loaded, rest⟩ := returns_bind.mp rest
  obtain ⟨rfl, faults, rfl⟩ := rbuf_returns loaded mounted
  rcases returns_onlyIf.mp rest with ⟨present, change⟩ | ⟨empty, rfl⟩
  · obtain ⟨_, _, stored, freed⟩ := returns_bind.mp change
    obtain ⟨faults, rfl⟩ := wbuf_returns stored (by exact mounted.congr rfl rfl)
    obtain ⟨_, rfl⟩ := blockFree_returns freed
    exact .inr ⟨of_decide_eq_true present, faults, rfl⟩
  · exact .inl ⟨by simpa using empty, faults, rfl⟩

theorem bmapFreeSub_fails {after : SfsFs} {ent : Nat} (mounted : Mounted sfs)
    (failed : Fails (bmapFreeSub ent index) sfs ret after) :
    (∃ faults, after = { sfs with faults := faults }) ∧ ¬ Healthy sfs := by
  rcases fails_bind.mp failed with failed | ⟨_, _, tested, rest⟩
  · exact absurd failed not_fails_blockInuse
  obtain ⟨_, _, _, rfl⟩ := blockInuse_returns tested
  rcases fails_bind.mp rest with failed | ⟨_, _, checked, rest⟩
  · exact absurd failed not_fails_assert
  obtain ⟨_, rfl⟩ := returns_assert.mp checked
  rcases fails_bind.mp rest with failed | ⟨_, _, loaded, rest⟩
  · exact ⟨(rbuf_fails mounted failed).2, fun healthy => healthy.rbuf mounted failed⟩
  have later : Healthy _ → Healthy _ := fun healthy => accepts_stable.rbuf _ healthy _ _ loaded
  obtain ⟨rfl, faults, rfl⟩ := rbuf_returns loaded mounted
  rcases fails_bind.mp (fails_onlyIf.mp rest).2 with failed | ⟨_, _, _, failed⟩
  · obtain ⟨faults, rfl⟩ := wbuf_fails (by exact mounted.congr rfl rfl) failed
    exact ⟨⟨faults, rfl⟩, fun healthy => (later healthy).wbuf (by exact mounted.congr rfl rfl) failed⟩
  · exact absurd failed not_fails_blockFree

/-- The last block of the file was taken away. -/
structure Shrunk (node : Node) (after : Node) : Prop where
  some_blocks : node.din.blocks ≠ 0
  blocks : after.din.blocks = node.din.blocks - 1
  map : ∀ i < ndirect + blkNentry,
    fileBlock after i = if i = node.din.blocks - 1 then 0 else fileBlock node i
  size : after.din.size = node.din.size ∧ after.din.type = node.din.type
  buffer : after.buf = node.buf ∧ after.moved = node.moved
  super : after.fs.blocks = node.fs.blocks ∧ after.fs.dBlocks = node.fs.dBlocks
  freemap : after.fs.freemap =
    Function.update node.fs.freemap (fileBlock node (node.din.blocks - 1)) true
  unused : after.fs.unusedBlocks = node.fs.unusedBlocks + 1
  indirect : after.din.indirect = node.din.indirect
  disk : ∀ d, (d ≠ 0 → d ≠ node.din.indirect) → after.fs.disk d = node.fs.disk d

theorem bmapTruncate_returns {result : Unit} (sound : Sound node)
    (ran : Returns bmapTruncate node result m) : Shrunk node m := by
  unfold bmapTruncate at ran
  obtain ⟨_, _, got, ran⟩ := returns_bind.mp ran
  obtain ⟨rfl, rfl⟩ := returns_gets.mp got
  obtain ⟨_, _, checked, ran⟩ := returns_bind.mp ran
  obtain ⟨some_blocks, rfl⟩ := returns_assert.mp checked
  have some_blocks := of_decide_eq_true some_blocks
  obtain ⟨_, _, freed, ran⟩ := returns_bind.mp ran
  obtain rfl := returns_modify.mp ran
  have room := sound.room
  have last := sound.data (node.din.blocks - 1) (by omega)
  unfold bmapFree at freed
  obtain ⟨_, _, got, freed⟩ := returns_bind.mp freed
  obtain ⟨rfl, rfl⟩ := returns_gets.mp got
  by_cases direct : node.din.blocks - 1 < ndirect
  · rw [if_pos direct] at freed
    have entry : fileBlock node (node.din.blocks - 1) = node.din.direct (node.din.blocks - 1) :=
      fileBlock_direct direct
    rw [entry] at last
    rcases returns_onlyIf.mp freed with ⟨_, change⟩ | ⟨empty, _⟩
    · obtain ⟨_, _, inner, stored⟩ := returns_bind.mp change
      obtain ⟨fs, free, rfl⟩ := returns_within.mp inner
      obtain ⟨_, rfl⟩ := blockFree_returns free
      obtain rfl := returns_modify.mp stored
      refine ⟨some_blocks, rfl, ?_, ⟨rfl, rfl⟩, ⟨rfl, rfl⟩, ⟨rfl, rfl⟩, ?_, rfl, rfl, fun _ _ => rfl⟩
      · intro i _
        by_cases below : i < ndirect
        · refine (fileBlock_direct below).trans ?_
          by_cases same : i = node.din.blocks - 1
          · rw [if_pos same, same]
            exact Function.update_self ..
          · rw [if_neg same, fileBlock_direct below]
            exact Function.update_of_ne same ..
        · rw [if_neg (by omega)]
          by_cases absent : node.din.indirect = 0
          · exact (fileBlock_absent below (by exact absent)).trans (fileBlock_absent below absent).symm
          · exact (fileBlock_indirect below (by exact absent)).trans (fileBlock_indirect below absent).symm
      · rw [entry]
    · exact absurd (by simpa using empty) last.1
  · rw [if_neg direct] at freed
    have present : node.din.indirect ≠ 0 := by
      intro absent
      rw [fileBlock_absent direct absent] at last
      exact last.1 rfl
    have entry := fileBlock_indirect direct present
    rw [entry] at last
    rcases returns_onlyIf.mp freed with ⟨_, change⟩ | ⟨empty, _⟩
    · obtain ⟨fs, sub, rfl⟩ := returns_within.mp change
      rcases bmapFreeSub_returns sound.mounted sub with ⟨none_there, _⟩ | ⟨_, faults, rfl⟩
      · exact absurd none_there last.1
      · refine ⟨some_blocks, rfl, ?_, ⟨rfl, rfl⟩, ⟨rfl, rfl⟩, ⟨rfl, rfl⟩, ?_, rfl, rfl, ?_⟩
        · intro i _
          by_cases below : i < ndirect
          · rw [if_neg (by omega)]
            refine (fileBlock_direct below).trans (Eq.symm ?_)
            exact fileBlock_direct below
          · refine (fileBlock_indirect below (by exact present)).trans ?_
            dsimp only
            rw [Function.update_self]
            by_cases same : i = node.din.blocks - 1
            · rw [if_pos same, same]
              exact loadU32_overlay_same _ (by decide)
            · rw [if_neg same, fileBlock_indirect below present]
              exact loadU32_overlay_other _ _ (by omega)
        · rw [entry]
        · intro d other
          refine Function.update_of_ne (fun same => ?_) ..
          exact other (same ▸ present) same
    · simp only [Bool.and_eq_false_iff, decide_eq_false_iff_not] at empty
      rcases empty with far | absent
      · omega
      · exact absurd present absent

theorem bmapTruncate_fails (mounted : Mounted node.fs)
    (failed : Fails bmapTruncate node ret reached) :
    (∃ faults, reached = { node with fs := { node.fs with faults := faults } }) ∧
      ndirect < node.din.blocks ∧ ¬ Healthy node.fs := by
  unfold bmapTruncate at failed
  rcases fails_bind.mp failed with failed | ⟨_, _, got, rest⟩
  · exact absurd failed not_fails_gets
  obtain ⟨rfl, rfl⟩ := returns_gets.mp got
  rcases fails_bind.mp rest with failed | ⟨_, _, checked, rest⟩
  · exact absurd failed not_fails_assert
  obtain ⟨some_blocks, rfl⟩ := returns_assert.mp checked
  have some_blocks := of_decide_eq_true some_blocks
  rcases fails_bind.mp rest with freeing | ⟨_, _, _, failed⟩
  · unfold bmapFree at freeing
    rcases fails_bind.mp freeing with failed | ⟨_, _, got, freeing⟩
    · exact absurd failed not_fails_gets
    obtain ⟨rfl, rfl⟩ := returns_gets.mp got
    split at freeing
    · rcases fails_bind.mp (fails_onlyIf.mp freeing).2 with failed | ⟨_, _, _, failed⟩
      · obtain ⟨_, inner, _⟩ := fails_within.mp failed
        exact absurd inner not_fails_blockFree
      · exact absurd failed not_fails_modify
    · rename_i indirect
      obtain ⟨fs, inner, rfl⟩ := fails_within.mp (fails_onlyIf.mp freeing).2
      obtain ⟨⟨faults, rfl⟩, refused⟩ := bmapFreeSub_fails mounted inner
      exact ⟨⟨faults, rfl⟩, by omega, refused⟩
  · exact absurd failed not_fails_modify

/-! ## Soundness -/

theorem Unmapped.map (unmapped : Unmapped node reached) (sound : Sound node) (i : Nat) :
    fileBlock reached i = fileBlock node i := by
  have din : reached.din = node.din := by
    obtain ⟨fs, rfl⟩ := unmapped.same
    rfl
  exact fileBlock_congr din (fun present => unmapped.fs.disk _ (sound.indirect present).1.2.2) i

theorem Unmapped.sound (unmapped : Unmapped node reached) (sound : Sound node) : Sound reached := by
  have map := unmapped.map sound
  obtain ⟨kept, fs, rfl⟩ := unmapped
  exact sound.congr rfl rfl rfl kept.super kept.freemap map

theorem Unmapped.bytes (unmapped : Unmapped node reached) (sound : Sound node)
    (inside : p / blksize < node.din.blocks) : byteAt reached p = byteAt node p := by
  unfold byteAt
  rw [unmapped.map sound, unmapped.fs.disk _ (sound.data _ inside).2.2]

theorem Shrunk.map_old (shrunk : Shrunk node after) (inside : index < node.din.blocks - 1)
    (sound : Sound node) : fileBlock after index = fileBlock node index := by
  have room := sound.room
  rw [shrunk.map index (by omega), if_neg (by omega)]

theorem Shrunk.used (shrunk : Shrunk node after) (used : InUse node.fs ino)
    (other : ino ≠ fileBlock node (node.din.blocks - 1)) : InUse after.fs ino := by
  rw [InUse, shrunk.super.1, shrunk.freemap, Function.update_of_ne other]
  exact used

theorem Shrunk.sound (shrunk : Shrunk node after) (sound : Sound node) : Sound after := by
  have some_blocks := shrunk.some_blocks
  have blocks := shrunk.blocks
  have room := sound.room
  refine ⟨sound.mounted.congr shrunk.super.1 shrunk.super.2, ?_, by omega, ?_, ?_, ?_, ?_⟩
  · rw [shrunk.size.2]
    exact sound.plain
  · intro i below
    rw [shrunk.map_old (by omega) sound]
    refine shrunk.used (sound.data i (by omega)) fun same => ?_
    have last := sound.apart i (by omega) _ (by omega) same
    omega
  · intro i below j below' same
    rw [shrunk.map_old (by omega) sound, shrunk.map_old (by omega) sound] at same
    exact sound.apart i (by omega) j (by omega) same
  · intro i above inside
    rw [shrunk.map i inside]
    by_cases last : i = node.din.blocks - 1
    · rw [if_pos last]
    · rw [if_neg last]
      exact sound.unmapped i (by omega) inside
  · intro present
    rw [shrunk.indirect] at present ⊢
    obtain ⟨used, apart⟩ := sound.indirect present
    refine ⟨shrunk.used used (apart _ (by omega)).symm, fun i below => ?_⟩
    rw [shrunk.map_old (by omega) sound]
    exact apart i (by omega)

theorem Shrunk.bytes (shrunk : Shrunk node after) (sound : Sound node)
    (inside : p / blksize < node.din.blocks - 1) : byteAt after p = byteAt node p := by
  unfold byteAt
  rw [shrunk.map_old inside sound, shrunk.disk _ fun _ => sound.data_ne_indirect (by omega)]

/-- A new block is clear. -/
theorem Grown.zero (grown : Grown node ino after) (place : p / blksize = node.din.blocks) :
    byteAt after p = 0 := by
  rw [byteAt, place, grown.map_new, grown.cleared]

/-! ## The loops -/

/-- The file has `tblks` blocks now; those it had and has are the same, new ones are clear. -/
structure Resized (node : Node) (tblks : Nat) (after : Node) : Prop where
  sound : Sound after
  blocks : after.din.blocks = tblks
  size : after.din.size = node.din.size ∧ after.din.type = node.din.type
  super : after.fs.blocks = node.fs.blocks ∧ after.fs.dBlocks = node.fs.dBlocks
  kept : ∀ p, p / blksize < node.din.blocks → p / blksize < tblks → byteAt after p = byteAt node p
  zero : ∀ p, node.din.blocks ≤ p / blksize → p / blksize < tblks → byteAt after p = 0

theorem Resized.same (sound : Sound node) : Resized node node.din.blocks node :=
  ⟨sound, rfl, ⟨rfl, rfl⟩, ⟨rfl, rfl⟩, fun _ _ _ => rfl, by omega⟩

theorem enlarge_returns {result : Unit} (sound : Sound node)
    (ran : Returns (enlarge node.din.blocks more) node result after) :
    Resized node (node.din.blocks + more) after := by
  induction more generalizing node with
  | zero =>
    obtain ⟨_, rfl⟩ := returns_pure.mp ran
    exact .same sound
  | succ more ih =>
    obtain ⟨ino, m, loaded, rest⟩ := returns_bind.mp ran
    rcases bmapLoad_returns sound loaded with ⟨below, _⟩ | ⟨_, grown⟩
    · exact absurd below (Nat.lt_irrefl _)
    have blocks := grown.blocks
    rw [← blocks] at rest
    have later := ih (grown.sound sound) rest
    refine ⟨later.sound, by rw [later.blocks]; omega,
      ⟨later.size.1.trans grown.size.1, later.size.2.trans grown.size.2⟩,
      ⟨later.super.1.trans grown.super.1, later.super.2.trans grown.super.2⟩, ?_, ?_⟩
    · intro p inside _
      rw [later.kept p (by omega) (by omega), grown.bytes sound inside]
    · intro p above inside
      by_cases first : p / blksize = node.din.blocks
      · rw [later.kept p (by omega) (by omega), grown.zero first]
      · exact later.zero p (by omega) (by omega)

theorem reduce_returns {result : Unit} (sound : Sound node)
    (ran : Returns (reduce more) node result after) :
    more ≤ node.din.blocks ∧ Resized node (node.din.blocks - more) after := by
  induction more generalizing node with
  | zero =>
    obtain ⟨_, rfl⟩ := returns_pure.mp ran
    exact ⟨Nat.zero_le _, .same sound⟩
  | succ more ih =>
    obtain ⟨_, m, taken, rest⟩ := returns_bind.mp ran
    have shrunk := bmapTruncate_returns sound taken
    have some_blocks := shrunk.some_blocks
    have blocks := shrunk.blocks
    obtain ⟨enough, later⟩ := ih (shrunk.sound sound) rest
    refine ⟨by omega, later.sound, by rw [later.blocks]; omega,
      ⟨later.size.1.trans shrunk.size.1, later.size.2.trans shrunk.size.2⟩,
      ⟨later.super.1.trans shrunk.super.1, later.super.2.trans shrunk.super.2⟩, ?_, ?_⟩
    · intro p inside below
      rw [later.kept p (by omega) (by omega), shrunk.bytes sound (by omega)]
    · intro p above inside
      omega

theorem resize_returns {tblks : Nat} {result : Unit} (sound : Sound node)
    (ran : Returns (resize tblks) node result after) : Resized node tblks after := by
  obtain ⟨_, _, got, ran⟩ := returns_bind.mp ran
  obtain ⟨rfl, rfl⟩ := returns_gets.mp got
  split at ran
  · have resized := enlarge_returns sound ran
    rwa [Nat.add_sub_cancel' (by omega)] at resized
  · have resized := (reduce_returns sound ran).2
    rwa [Nat.sub_sub_self (by omega)] at resized

/-! ## Failures of the loops -/

theorem Grown.two_free (grown : Grown node ino after) :
    need node node.din.blocks ≤ (freeSet node.fs).card := by
  have own : ino ∈ freeSet node.fs :=
    mem_freeSet.mpr ⟨below_freemapBits grown.valid.2, grown.fresh⟩
  have one : 0 < (freeSet node.fs).card := Finset.card_pos.mpr ⟨ino, own⟩
  unfold need
  split
  · exact one
  · split
    · rename_i indirect absent
      rcases grown.indirect with same | ⟨_, fresh, used, apart⟩
      · have mapped := grown.map_new
        rw [fileBlock_absent indirect (same.trans absent)] at mapped
        exact absurd mapped.symm grown.valid.1
      · have below : after.din.indirect < node.fs.blocks := grown.super.1 ▸ used.2.1
        exact Finset.one_lt_card.mpr
          ⟨_, mem_freeSet.mpr ⟨below_freemapBits below, fresh⟩, ino, own, apart⟩
    · exact one

theorem Grown.free_card (grown : Grown node ino after) :
    (freeSet node.fs).card ≤ (freeSet after.fs).card + need node node.din.blocks := by
  have kept : ∀ d ∈ freeSet node.fs, after.fs.freemap d = true → d ∈ freeSet after.fs :=
    fun d member free => mem_freeSet.mpr ⟨grown.super.1 ▸ (mem_freeSet.mp member).1, free⟩
  have one : after.din.indirect = node.din.indirect →
      (freeSet node.fs).card ≤ (freeSet after.fs).card + 1 := fun same => by
    refine (Finset.card_le_card fun d member => ?_).trans (Finset.card_insert_le ino _)
    rcases grown.taken d (mem_freeSet.mp member).2 with free | new | ⟨new, other⟩
    · exact Finset.mem_insert_of_mem (kept d member free)
    · exact Finset.mem_insert.mpr (.inl new)
    · exact absurd (new.trans same) other
  unfold need
  split
  · rename_i direct
    exact one (grown.direct direct)
  · split
    · refine (Finset.card_le_card fun d member => ?_).trans
        ((Finset.card_insert_le ino _).trans (Nat.succ_le_succ (Finset.card_insert_le after.din.indirect _)))
      rcases grown.taken d (mem_freeSet.mp member).2 with free | new | ⟨new, _⟩
      · exact Finset.mem_insert_of_mem (Finset.mem_insert_of_mem (kept d member free))
      · exact Finset.mem_insert.mpr (.inl new)
      · exact Finset.mem_insert_of_mem (Finset.mem_insert.mpr (.inl new))
    · rename_i present
      rcases grown.indirect with same | ⟨absent, _⟩
      · exact one same
      · exact absurd absent present

/-- The blocks that adding `more` file blocks takes. -/
def needAll (node : Node) (more : Nat) : Nat :=
  more + if node.din.indirect = 0 ∧ ndirect < node.din.blocks + more then 1 else 0

theorem needAll_succ (grown : Grown node ino after) (sound : Sound node) :
    needAll node (more + 1) = need node node.din.blocks + needAll after more := by
  have blocks := grown.blocks
  unfold needAll need
  by_cases direct : node.din.blocks < ndirect
  · rw [if_pos direct, grown.direct direct, blocks, Nat.add_right_comm _ 1 more]
    simp only [Nat.add_assoc]
    omega
  · rw [if_neg direct]
    have mapped := (grown.sound sound).data node.din.blocks (by omega)
    have present : after.din.indirect ≠ 0 := fun absent => by
      rw [fileBlock_absent direct absent] at mapped
      exact mapped.1 rfl
    rw [if_neg (show ¬ (after.din.indirect = 0 ∧ _) from fun both => present both.1)]
    by_cases absent : node.din.indirect = 0
    · rw [if_pos ⟨absent, by omega⟩, if_pos absent]
      omega
    · rw [if_neg (show ¬ (node.din.indirect = 0 ∧ _) from fun both => absent both.1), if_neg absent]
      omega

/-- A device that refuses nothing and enough free blocks: the file is enlarged or the
system stops. -/
theorem enlarge_healthy (sound : Sound node) (healthy : Healthy node.fs)
    (enough : needAll node more ≤ (freeSet node.fs).card) :
    ¬ Fails (enlarge node.din.blocks more) node ret reached := by
  induction more generalizing node with
  | zero => exact not_fails_pure
  | succ more ih =>
    intro failed
    rcases fails_bind.mp failed with first | ⟨ino, m, loaded, rest⟩
    · have short := ((bmapLoad_fails sound.mounted healthy.clears first).2 healthy).2
      have least : need node node.din.blocks ≤ needAll node (more + 1) := by
        unfold need needAll
        split
        · omega
        · split
          · rename_i absent
            rw [if_pos ⟨absent, by omega⟩]
            omega
          · omega
      omega
    · rcases bmapLoad_returns sound loaded with ⟨below, _⟩ | ⟨_, grown⟩
      · exact absurd below (Nat.lt_irrefl _)
      have card := grown.free_card
      rw [needAll_succ grown sound] at enough
      rw [← grown.blocks] at rest
      exact ih (grown.sound sound) (accepts_stable.bmapLoad _ healthy _ _ loaded) (by omega) rest

/-- The first access of the call is to the indirect block, and the device refuses it. -/
def FirstRefused (node : Node) : Prop :=
  node.din.indirect ≠ 0 ∧ node.fs.faults 0 node.din.indirect false ≠ none

theorem rbuf_first_access {block : Block} {fs : SfsFs} (mounted : Mounted sfs)
    (ran : Returns (rbuf len blkno offset) sfs block fs) : sfs.faults 0 blkno false = none := by
  obtain ⟨_, _, checked, ran⟩ := returns_bind.mp ran
  obtain ⟨_, rfl⟩ := returns_assert.mp checked
  obtain ⟨_, below, io⟩ := rwblockNolock_returns ran
  unfold disk0Io at io
  obtain ⟨_, _, got, io⟩ := returns_bind.mp io
  obtain ⟨rfl, rfl⟩ := returns_gets.mp got
  rw [(mounted.at_block below).2] at io
  split at io
  · exact absurd io (not_returns_fail _)
  · obtain ⟨_, _, stepped, io⟩ := returns_bind.mp io
    obtain rfl := returns_modify.mp stepped
    split at io
    · exact absurd io (not_returns_fail _)
    · rename_i accepted
      exact accepted

theorem bmapLoad_first_access (mounted : Mounted node.fs) (indirect : ¬ index < ndirect)
    (ran : Returns (bmapLoad index) node ino reached) : ¬ FirstRefused node := by
  rintro ⟨present, refused⟩
  unfold bmapLoad at ran
  obtain ⟨_, _, got, ran⟩ := returns_bind.mp ran
  obtain ⟨rfl, rfl⟩ := returns_gets.mp got
  obtain ⟨_, _, checked, ran⟩ := returns_bind.mp ran
  obtain ⟨_, rfl⟩ := returns_assert.mp checked
  obtain ⟨_, _, found, _⟩ := returns_bind.mp ran
  unfold bmapGet at found
  obtain ⟨_, _, got, found⟩ := returns_bind.mp found
  obtain ⟨rfl, rfl⟩ := returns_gets.mp got
  rw [if_neg indirect] at found
  split at found
  · obtain ⟨_, _, inner, _⟩ := returns_bind.mp found
    obtain ⟨fs, sub, _⟩ := returns_within.mp inner
    obtain ⟨_, _, checked, sub⟩ := returns_bind.mp sub
    obtain ⟨_, rfl⟩ := returns_assert.mp checked
    rw [if_pos present] at sub
    obtain ⟨_, _, loaded, _⟩ := returns_bind.mp sub
    exact refused (rbuf_first_access mounted loaded)
  · exact absurd found not_returns_stop

theorem bmapTruncate_first_access {result : Unit} (mounted : Mounted node.fs)
    (indirect : ndirect < node.din.blocks) (room : node.din.blocks ≤ ndirect + blkNentry)
    (ran : Returns bmapTruncate node result reached) : ¬ FirstRefused node := by
  rintro ⟨present, refused⟩
  unfold bmapTruncate at ran
  obtain ⟨_, _, got, ran⟩ := returns_bind.mp ran
  obtain ⟨rfl, rfl⟩ := returns_gets.mp got
  obtain ⟨_, _, checked, ran⟩ := returns_bind.mp ran
  obtain ⟨_, rfl⟩ := returns_assert.mp checked
  obtain ⟨_, _, freed, _⟩ := returns_bind.mp ran
  unfold bmapFree at freed
  obtain ⟨_, _, got, freed⟩ := returns_bind.mp freed
  obtain ⟨rfl, rfl⟩ := returns_gets.mp got
  rw [if_neg (by omega)] at freed
  rcases returns_onlyIf.mp freed with ⟨_, change⟩ | ⟨skipped, _⟩
  · obtain ⟨fs, sub, _⟩ := returns_within.mp change
    obtain ⟨_, _, tested, sub⟩ := returns_bind.mp sub
    obtain ⟨_, _, _, rfl⟩ := blockInuse_returns tested
    obtain ⟨_, _, checked, sub⟩ := returns_bind.mp sub
    obtain ⟨_, rfl⟩ := returns_assert.mp checked
    obtain ⟨_, _, loaded, _⟩ := returns_bind.mp sub
    exact refused (rbuf_first_access mounted loaded)
  · simp only [Bool.and_eq_false_iff, decide_eq_false_iff_not] at skipped
    rcases skipped with far | absent
    · omega
    · exact absent present

/-- When adding blocks fails, nothing has been added. -/
def EnlargeSafe (node : Node) (more : Nat) : Prop :=
  more ≤ 1 ∨ (Healthy node.fs ∧ needAll node more ≤ (freeSet node.fs).card) ∨
    (freeSet node.fs).card < need node node.din.blocks ∨
    (ndirect ≤ node.din.blocks ∧ FirstRefused node)

theorem enlarge_fails (sound : Sound node) (clears : ClearsFree node.fs) (safe : EnlargeSafe node more)
    (failed : Fails (enlarge node.din.blocks more) node ret reached) : Unmapped node reached := by
  cases more with
  | zero => exact absurd failed not_fails_pure
  | succ more =>
    rcases fails_bind.mp failed with first | ⟨ino, m, loaded, rest⟩
    · exact (bmapLoad_fails sound.mounted clears first).1
    · rcases bmapLoad_returns sound loaded with ⟨below, _⟩ | ⟨_, grown⟩
      · exact absurd below (Nat.lt_irrefl _)
      rcases safe with one | ⟨healthy, enough⟩ | full | ⟨indirect, refused⟩
      · obtain rfl : more = 0 := by omega
        exact absurd rest not_fails_pure
      · exact absurd failed (enlarge_healthy sound healthy enough)
      · have some_free := grown.two_free
        omega
      · exact absurd refused (bmapLoad_first_access sound.mounted (by omega) loaded)

/-- When taking blocks away fails, nothing has been taken. -/
def ReduceSafe (node : Node) (more : Nat) : Prop :=
  more ≤ 1 ∨ Healthy node.fs ∨ node.din.blocks ≤ ndirect + 1 ∨ FirstRefused node

theorem reduce_healthy (sound : Sound node)
    (failed : Fails (reduce more) node ret reached) :
    ndirect < node.din.blocks ∧ ¬ Healthy node.fs := by
  induction more generalizing node with
  | zero => exact absurd failed not_fails_pure
  | succ more ih =>
    rcases fails_bind.mp failed with first | ⟨_, m, taken, rest⟩
    · exact (bmapTruncate_fails sound.mounted first).2
    · have shrunk := bmapTruncate_returns sound taken
      have blocks := shrunk.blocks
      obtain ⟨indirect, refused⟩ := ih (shrunk.sound sound) rest
      exact ⟨by omega, fun healthy => refused (accepts_stable.bmapTruncate _ healthy _ _ taken)⟩

theorem reduce_fails (sound : Sound node) (safe : ReduceSafe node more)
    (failed : Fails (reduce more) node ret reached) : Unmapped node reached := by
  obtain ⟨indirect, refusing⟩ := reduce_healthy sound failed
  cases more with
  | zero => exact absurd failed not_fails_pure
  | succ more =>
    rcases fails_bind.mp failed with first | ⟨_, m, taken, rest⟩
    · obtain ⟨⟨faults, rfl⟩, _⟩ := bmapTruncate_fails sound.mounted first
      exact ⟨.faults, _, rfl⟩
    · have shrunk := bmapTruncate_returns sound taken
      have blocks := shrunk.blocks
      rcases safe with one | healthy | few | refused
      · obtain rfl : more = 0 := by omega
        exact absurd rest not_fails_pure
      · exact absurd healthy refusing
      · have more_left := (reduce_healthy (shrunk.sound sound) rest).1
        omega
      · exact absurd refused (bmapTruncate_first_access sound.mounted indirect sound.room taken)

end Ucore.Sfs
