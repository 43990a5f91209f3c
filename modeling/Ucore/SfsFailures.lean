import Ucore.SfsProofs
import Ucore.SfsKeeps

/-! What a failed call leaves behind. As long as no clearing of a new block is
refused, a block that could not be mapped is given back and nothing in use has
changed; when the device refuses nothing at all, only a lack of free blocks
makes an extension fail. -/
namespace Ucore.Sfs
open Call

variable {sfs after : SfsFs} {block data : Block} {blkno len offset ino : Nat} {ret : Int}

/-! ## The device -/

/-- The device takes every access of a kind. -/
def Accepts (kind : Nat → Bool → Prop) (sfs : SfsFs) : Prop :=
  ∀ n d write, kind d write → sfs.faults n d write = none

/-- It refuses nothing. -/
abbrev Healthy (sfs : SfsFs) : Prop := Accepts (fun _ _ => True) sfs

/-- It refuses no write to a block that is free. -/
def ClearsFree (sfs : SfsFs) : Prop := Accepts (fun d write => sfs.freemap d = true ∧ write = true) sfs

theorem Healthy.clears (healthy : Healthy sfs) : ClearsFree sfs :=
  fun n d write _ => healthy n d write trivial

/-- Nothing in use has changed. -/
structure Kept (sfs after : SfsFs) : Prop where
  super : after.blocks = sfs.blocks ∧ after.dBlocks = sfs.dBlocks
  freemap : after.freemap = sfs.freemap
  unused : after.unusedBlocks = sfs.unusedBlocks
  disk : ∀ d, sfs.freemap d = false → after.disk d = sfs.disk d

theorem Kept.faults {faults : Nat → Nat → Bool → Option Int} : Kept sfs { sfs with faults := faults } :=
  ⟨⟨rfl, rfl⟩, rfl, rfl, fun _ _ => rfl⟩

theorem disk0Io_fails {data : Option Block} (mounted : Mounted sfs) (below : blkno < sfs.blocks)
    (failed : Fails (disk0Io (blkno * blksize % 2 ^ 32) data) sfs ret after) :
    sfs.faults 0 blkno data.isSome = some ret ∧ ∃ faults, after = { sfs with faults := faults } := by
  obtain ⟨aligned, place⟩ := mounted.at_block below
  have inside := mounted.inside
  unfold disk0Io at failed
  rcases fails_bind.mp failed with failed | ⟨_, _, got, failed⟩
  · exact absurd failed not_fails_gets
  obtain ⟨rfl, rfl⟩ := returns_gets.mp got
  rw [aligned, Nat.mul_div_cancel _ (by decide), if_neg (by simp; omega)] at failed
  rcases fails_bind.mp failed with failed | ⟨_, _, stepped, failed⟩
  · exact absurd failed not_fails_modify
  obtain rfl := returns_modify.mp stepped
  split at failed
  · rename_i code refused
    obtain ⟨rfl, rfl⟩ := fails_fail.mp failed
    exact ⟨refused, _, rfl⟩
  · cases data with
    | none => exact absurd failed not_fails_pure
    | some data =>
      rcases fails_bind.mp failed with failed | ⟨_, _, _, failed⟩
      · exact absurd failed not_fails_modify
      · exact absurd failed not_fails_pure

theorem rwblockNolock_fails {data : Option Block} {check : Bool} (mounted : Mounted sfs)
    (failed : Fails (rwblockNolock blkno data check) sfs ret after) :
    sfs.faults 0 blkno data.isSome = some ret ∧ ∃ faults, after = { sfs with faults := faults } := by
  unfold rwblockNolock at failed
  rcases fails_bind.mp failed with failed | ⟨_, _, got, failed⟩
  · exact absurd failed not_fails_gets
  obtain ⟨rfl, rfl⟩ := returns_gets.mp got
  rcases fails_bind.mp failed with failed | ⟨_, _, checked, failed⟩
  · exact absurd failed not_fails_assert
  obtain ⟨valid, rfl⟩ := returns_assert.mp checked
  simp only [Bool.and_eq_true, decide_eq_true_eq] at valid
  exact disk0Io_fails mounted valid.2 failed

theorem wblockNolock_fails (mounted : Mounted sfs)
    (failed : Fails (wblockNolock blkno true data) sfs ret after) :
    sfs.faults 0 blkno true = some ret ∧ ∃ faults, after = { sfs with faults := faults } := by
  rcases fails_bind.mp failed with failed | ⟨_, _, _, failed⟩
  · exact rwblockNolock_fails mounted failed
  · exact absurd failed not_fails_pure

theorem rbuf_fails (mounted : Mounted sfs) (failed : Fails (rbuf len blkno offset) sfs ret after) :
    sfs.faults 0 blkno false = some ret ∧ ∃ faults, after = { sfs with faults := faults } := by
  rcases fails_bind.mp failed with failed | ⟨_, _, checked, failed⟩
  · exact absurd failed not_fails_assert
  obtain ⟨_, rfl⟩ := returns_assert.mp checked
  exact rwblockNolock_fails mounted failed

theorem wbuf_fails (mounted : Mounted sfs) (failed : Fails (wbuf data len blkno offset) sfs ret after) :
    (∃ faults, after = { sfs with faults := faults }) := by
  rcases fails_bind.mp failed with failed | ⟨_, _, checked, failed⟩
  · exact absurd failed not_fails_assert
  obtain ⟨_, rfl⟩ := returns_assert.mp checked
  rcases fails_bind.mp failed with failed | ⟨_, _, loaded, failed⟩
  · exact (rwblockNolock_fails mounted failed).2
  obtain ⟨_, _, _, faults, rfl⟩ := rblockNolock_returns loaded mounted
  obtain ⟨_, faults, rfl⟩ := wblockNolock_fails (by exact mounted.congr rfl rfl) failed
  exact ⟨faults, rfl⟩

/-! ## What every call keeps of the device's answers -/

section
variable {kind : Nat → Bool → Prop}

theorem accepts_modify {update : SfsFs → SfsFs} (same : ∀ sfs, (update sfs).faults = sfs.faults) :
    Keeps (Accepts kind) (modify update) :=
  keeps_modify fun sfs accepts n d write which => by
    rw [same]
    exact accepts n d write which

theorem disk0Io_accepts {data : Option Block} :
    Keeps (Accepts kind) (disk0Io offset data) := by
  unfold disk0Io
  refine keeps_bind (keeps_gets _) fun sfs => ?_
  split
  · exact keeps_fail _
  · refine keeps_bind (keeps_modify fun sfs accepts n => accepts (n + 1)) fun _ => ?_
    split
    · exact keeps_fail _
    · cases data with
      | none => exact keeps_pure
      | some data => exact keeps_bind (accepts_modify fun _ => rfl) fun _ => keeps_pure

theorem bitmapAlloc_accepts : Keeps (Accepts kind) bitmapAlloc := by
  refine keeps_bind (keeps_gets _) fun sfs => ?_
  split
  · exact keeps_fail _
  · exact keeps_bind (accepts_modify fun _ => rfl) fun _ => keeps_pure

theorem accepts_stable : Stable (Accepts kind) := by
  have write : ∀ blkno check block, Keeps (Accepts kind) (wblockNolock blkno check block) :=
    fun _ _ _ => keeps_bind (keeps_bind (keeps_gets _) fun _ => keeps_bind (keeps_assert _) fun _ =>
      disk0Io_accepts) fun _ => keeps_pure
  refine ⟨fun _ _ => disk0Io_accepts, ?_, fun ino => ?_⟩
  · refine keeps_bind bitmapAlloc_accepts fun ino => keeps_bind (keeps_gets _) fun _ =>
      keeps_bind (keeps_assert _) fun _ => keeps_bind (accepts_modify fun _ => rfl) fun _ =>
      keeps_bind Stable.blockInuse fun _ => keeps_bind (keeps_assert _) fun _ =>
      keeps_bind ?_ fun _ => keeps_pure
    exact keeps_bind (write _ _ _) fun _ => keeps_pure
  · exact keeps_bind Stable.blockInuse fun _ => keeps_bind (keeps_assert _) fun _ =>
      accepts_modify fun _ => rfl

end

/-! ## Failed allocations -/

/-- The free blocks. -/
def freeSet (sfs : SfsFs) : Finset Nat :=
  (Finset.range (freemapBits sfs.blocks)).filter fun d => sfs.freemap d = true

theorem mem_freeSet : blkno ∈ freeSet sfs ↔ blkno < freemapBits sfs.blocks ∧ sfs.freemap blkno = true := by
  rw [freeSet, Finset.mem_filter, Finset.mem_range]

theorem below_freemapBits (below : blkno < sfs.blocks) : blkno < freemapBits sfs.blocks := by
  unfold freemapBits blkbits
  omega

theorem bitmapAlloc_fails (failed : Fails bitmapAlloc sfs ret after) : after = sfs := by
  rcases fails_bind.mp failed with failed | ⟨_, _, got, failed⟩
  · exact absurd failed not_fails_gets
  obtain ⟨rfl, rfl⟩ := returns_gets.mp got
  split at failed
  · exact (fails_fail.mp failed).2.symm
  · rcases fails_bind.mp failed with failed | ⟨_, _, _, failed⟩
    · exact absurd failed not_fails_modify
    · exact absurd failed not_fails_pure

/-- Without a refused clearing, only a full disk fails. -/
theorem blockAlloc_fails (mounted : Mounted sfs) (clears : ClearsFree sfs)
    (failed : Fails blockAlloc sfs ret after) : freeSet sfs = ∅ ∧ after = sfs := by
  unfold blockAlloc at failed
  rcases fails_bind.mp failed with failed | ⟨_, _, alloc, failed⟩
  · unfold bitmapAlloc at failed
    rcases fails_bind.mp failed with failed | ⟨_, _, got, failed⟩
    · exact absurd failed not_fails_gets
    obtain ⟨rfl, rfl⟩ := returns_gets.mp got
    split at failed
    · rename_i none_free
      obtain ⟨_, rfl⟩ := fails_fail.mp failed
      refine ⟨Finset.eq_empty_of_forall_notMem fun d member => ?_, rfl⟩
      obtain ⟨below, free⟩ := mem_freeSet.mp member
      have taken := List.find?_eq_none.mp none_free d (List.mem_range.mpr below)
      exact taken free
    · rcases fails_bind.mp failed with failed | ⟨_, _, _, failed⟩
      · exact absurd failed not_fails_modify
      · exact absurd failed not_fails_pure
  · obtain ⟨free, rfl⟩ := bitmapAlloc_returns alloc
    rcases fails_bind.mp failed with failed | ⟨_, _, got, failed⟩
    · exact absurd failed not_fails_gets
    obtain ⟨rfl, rfl⟩ := returns_gets.mp got
    rcases fails_bind.mp failed with failed | ⟨_, _, checked, failed⟩
    · exact absurd failed not_fails_assert
    obtain ⟨_, rfl⟩ := returns_assert.mp checked
    rcases fails_bind.mp failed with failed | ⟨_, _, counted, failed⟩
    · exact absurd failed not_fails_modify
    obtain rfl := returns_modify.mp counted
    rcases fails_bind.mp failed with failed | ⟨_, _, tested, failed⟩
    · rcases fails_bind.mp failed with failed | ⟨_, _, _, failed⟩
      · exact absurd failed not_fails_gets
      rcases fails_bind.mp failed with failed | ⟨_, _, _, failed⟩
      · exact absurd failed not_fails_assert
      · exact absurd failed not_fails_pure
    obtain ⟨nonzero, below, _, rfl⟩ := blockInuse_returns tested
    rcases fails_bind.mp failed with failed | ⟨_, _, checked, failed⟩
    · exact absurd failed not_fails_assert
    obtain ⟨_, rfl⟩ := returns_assert.mp checked
    rcases fails_bind.mp failed with failed | ⟨_, _, _, failed⟩
    · rcases fails_bind.mp failed with failed | ⟨_, _, _, failed⟩
      · have refused := (wblockNolock_fails (by exact mounted.congr rfl rfl) failed).1
        have accepted := clears 0 _ true ⟨free, rfl⟩
        exact absurd (accepted.symm.trans refused) (by simp)
      · exact absurd failed not_fails_pure
    · exact absurd failed not_fails_pure

theorem blockAlloc_counted (ran : Returns blockAlloc sfs ino after) : 0 < sfs.unusedBlocks := by
  unfold blockAlloc at ran
  obtain ⟨_, _, alloc, ran⟩ := returns_bind.mp ran
  obtain ⟨_, rfl⟩ := bitmapAlloc_returns alloc
  obtain ⟨_, _, got, ran⟩ := returns_bind.mp ran
  obtain ⟨rfl, rfl⟩ := returns_gets.mp got
  obtain ⟨_, _, checked, ran⟩ := returns_bind.mp ran
  exact of_decide_eq_true (returns_assert.mp checked).1

theorem blockFree_returns {result : Unit} (ran : Returns (blockFree ino) sfs result after) :
    InUse sfs ino ∧ after = { sfs with
      freemap := Function.update sfs.freemap ino true
      unusedBlocks := sfs.unusedBlocks + 1
      superDirty := true } := by
  obtain ⟨_, _, tested, ran⟩ := returns_bind.mp ran
  obtain ⟨nonzero, below, rfl, rfl⟩ := blockInuse_returns tested
  obtain ⟨_, _, checked, ran⟩ := returns_bind.mp ran
  obtain ⟨used, rfl⟩ := returns_assert.mp checked
  obtain rfl := returns_modify.mp ran
  exact ⟨⟨nonzero, below, by simpa using used⟩, rfl⟩

theorem not_fails_blockInuse : ¬ Fails (blockInuse ino) sfs ret after := by
  intro failed
  rcases fails_bind.mp failed with failed | ⟨_, _, _, failed⟩
  · exact not_fails_gets failed
  rcases fails_bind.mp failed with failed | ⟨_, _, _, failed⟩
  · exact not_fails_assert failed
  · exact not_fails_pure failed

theorem not_fails_blockFree : ¬ Fails (blockFree ino) sfs ret after := by
  intro failed
  rcases fails_bind.mp failed with failed | ⟨_, _, _, failed⟩
  · exact not_fails_blockInuse failed
  rcases fails_bind.mp failed with failed | ⟨_, _, _, failed⟩
  · exact not_fails_assert failed
  · exact not_fails_modify failed

theorem Healthy.rbuf (healthy : Healthy sfs) (mounted : Mounted sfs) :
    ¬ Fails (rbuf len blkno offset) sfs ret after := by
  intro failed
  have refused := (rbuf_fails mounted failed).1
  rw [healthy 0 blkno false trivial] at refused
  cases refused

theorem Healthy.wbuf (healthy : Healthy sfs) (mounted : Mounted sfs) :
    ¬ Fails (wbuf data len blkno offset) sfs ret after := by
  intro failed
  rcases fails_bind.mp failed with failed | ⟨_, _, checked, failed⟩
  · exact not_fails_assert failed
  obtain ⟨_, rfl⟩ := returns_assert.mp checked
  rcases fails_bind.mp failed with failed | ⟨_, _, loaded, failed⟩
  · have refused := (rwblockNolock_fails mounted failed).1
    rw [healthy 0 blkno _ trivial] at refused
    cases refused
  · have later : Healthy _ := accepts_stable.rwblockNolock _ healthy _ _ loaded
    obtain ⟨_, _, _, faults, rfl⟩ := rblockNolock_returns loaded mounted
    have refused := (wblockNolock_fails (by exact mounted.congr rfl rfl) failed).1
    rw [later 0 blkno true trivial] at refused
    cases refused

theorem cleanupEntry_fails {entp ent : Nat} {code : Int}
    (failed : Fails (cleanupEntry entp ent code) sfs ret after) :
    (ent = entp ∧ after = sfs) ∨ (ent ≠ entp ∧ ∃ dirty, after = { sfs with
      freemap := Function.update sfs.freemap ent true
      unusedBlocks := sfs.unusedBlocks + 1
      superDirty := dirty }) := by
  rcases fails_bind.mp failed with failed | ⟨_, _, freed, failed⟩
  · exact absurd (fails_onlyIf.mp failed).2 not_fails_blockFree
  · obtain ⟨_, rfl⟩ := fails_fail.mp failed
    rcases returns_onlyIf.mp freed with ⟨new, freed⟩ | ⟨old, rfl⟩
    · obtain ⟨_, rfl⟩ := blockFree_returns freed
      exact .inr ⟨of_decide_eq_true new, true, rfl⟩
    · exact .inl ⟨by simpa using old, rfl⟩

/-- A block that was taken is given back. -/
theorem Kept.restored {faults : Nat → Nat → Bool → Option Int} {disk : Nat → Block} {dirty : Bool}
    (free : sfs.freemap ino = true) (counted : 0 < sfs.unusedBlocks)
    (others : ∀ d, d ≠ ino → disk d = sfs.disk d) :
    Kept sfs { sfs with
      faults := faults
      disk := disk
      freemap := Function.update (Function.update sfs.freemap ino false) ino true
      unusedBlocks := sfs.unusedBlocks - 1 + 1
      superDirty := dirty } := by
  refine ⟨⟨rfl, rfl⟩, ?_, Nat.sub_add_cancel counted, fun d used => others d ?_⟩
  · dsimp only
    rw [Function.update_idem, ← free, Function.update_eq_self]
  · rintro rfl
    rw [free] at used
    cases used

/-- An entry that got no block: what was taken for it is given back. -/
theorem allocEntry_fails {entp ent : Nat} (mounted : Mounted sfs) (clears : ClearsFree sfs)
    (failed : Fails (allocEntry entp ent offset) sfs ret after) :
    (∃ between, Kept sfs between ∧ ((ent = entp ∧ after = between) ∨ (ent ≠ entp ∧ ∃ dirty,
      after = { between with
        freemap := Function.update between.freemap ent true
        unusedBlocks := between.unusedBlocks + 1
        superDirty := dirty }))) ∧
    (Healthy sfs → freeSet sfs = ∅) := by
  rcases fails_bind.mp failed with failed | ⟨outcome, _, tried, rest⟩
  · exact absurd failed not_fails_attempt
  cases outcome with
  | error code =>
    obtain ⟨full, rfl⟩ := blockAlloc_fails mounted clears (returns_attempt_error.mp tried)
    exact ⟨⟨_, ⟨⟨rfl, rfl⟩, rfl, rfl, fun _ _ => rfl⟩, cleanupEntry_fails rest⟩, fun _ => full⟩
  | ok ino =>
    have alloc := returns_attempt_ok.mp tried
    have counted := blockAlloc_counted alloc
    have kept : Healthy sfs → Healthy _ := fun healthy => accepts_stable.alloc _ healthy _ _ alloc
    obtain ⟨free, nonzero, below, faults, rfl⟩ := blockAlloc_returns alloc mounted
    rcases fails_bind.mp rest with failed | ⟨outcome, _, tried, cleanup⟩
    · exact absurd failed not_fails_attempt
    cases outcome with
    | ok stored => exact absurd cleanup not_fails_pure
    | error code =>
      have stored := returns_attempt_error.mp tried
      refine ⟨?_, fun healthy => absurd stored ((kept healthy).wbuf (by exact mounted.congr rfl rfl))⟩
      obtain ⟨faults, rfl⟩ := wbuf_fails (by exact mounted.congr rfl rfl) stored
      rcases fails_bind.mp cleanup with failed | ⟨_, _, freed, ending⟩
      · exact absurd failed not_fails_blockFree
      obtain ⟨_, rfl⟩ := blockFree_returns freed
      exact ⟨_, .restored free counted fun d other => Function.update_of_ne other ..,
        cleanupEntry_fails ending⟩

theorem Kept.trans {between : SfsFs} (first : Kept sfs between) (second : Kept between after) :
    Kept sfs after :=
  ⟨⟨second.super.1.trans first.super.1, second.super.2.trans first.super.2⟩,
    second.freemap.trans first.freemap, second.unused.trans first.unused,
    fun d used => (second.disk d (by rwa [first.freemap])).trans (first.disk d used)⟩

theorem bmapGetSub_fails {entp index : Nat} {create : Bool} (mounted : Mounted sfs)
    (clears : ClearsFree sfs)
    (failed : Fails (bmapGetSub entp index create) sfs ret after) :
    Kept sfs after ∧ (Healthy sfs → create = true ∧
      (freeSet sfs).card < if entp = 0 then 2 else 1) := by
  rcases fails_bind.mp failed with failed | ⟨_, _, checked, failed⟩
  · exact absurd failed not_fails_assert
  obtain ⟨_, rfl⟩ := returns_assert.mp checked
  split at failed
  · rename_i present
    rw [if_neg present]
    rcases fails_bind.mp failed with failed | ⟨_, _, loaded, rest⟩
    · refine ⟨?_, fun healthy => absurd failed (healthy.rbuf mounted)⟩
      obtain ⟨_, faults, rfl⟩ := rbuf_fails mounted failed
      exact .faults
    · have healthy : Healthy sfs → Healthy _ := fun healthy => accepts_stable.rbuf _ healthy _ _ loaded
      have clears : Accepts (fun d write => sfs.freemap d = true ∧ write = true) _ :=
        accepts_stable.rbuf _ clears _ _ loaded
      obtain ⟨rfl, faults, rfl⟩ := rbuf_returns loaded mounted
      split at rest
      · exact absurd rest not_fails_pure
      · rename_i empty
        simp only [Bool.or_eq_true, not_or, Bool.not_eq_true'] at empty
        obtain ⟨⟨between, kept, same | new⟩, full⟩ :=
          allocEntry_fails (by exact mounted.congr rfl rfl) (by exact clears) rest
        · obtain ⟨_, rfl⟩ := same
          refine ⟨.trans .faults kept, fun sane => ⟨by simpa using empty.2, ?_⟩⟩
          have full := full (healthy sane)
          change freeSet sfs = ∅ at full
          rw [full]
          decide
        · exact absurd rfl new.1
  · rename_i absent
    obtain rfl := not_not.mp absent
    rw [if_pos rfl]
    split at failed
    · exact absurd failed not_fails_pure
    · rename_i create
      refine (and_congr_right fun _ => imp_congr_right fun _ => and_iff_right (by simpa using create)).mpr ?_
      rcases fails_bind.mp failed with failed | ⟨ent, _, alloc, rest⟩
      · obtain ⟨full, rfl⟩ := blockAlloc_fails mounted clears failed
        refine ⟨⟨⟨rfl, rfl⟩, rfl, rfl, fun _ _ => rfl⟩, fun _ => ?_⟩
        rw [full]
        decide
      · have counted := blockAlloc_counted alloc
        have healthy : Healthy sfs → Healthy _ := fun healthy => accepts_stable.alloc _ healthy _ _ alloc
        have clears : Accepts (fun d write => sfs.freemap d = true ∧ write = true) _ :=
          accepts_stable.alloc _ clears _ _ alloc
        obtain ⟨free, nonzero, below, faults, rfl⟩ := blockAlloc_returns alloc mounted
        obtain ⟨⟨between, kept, same | ⟨_, dirty, rfl⟩⟩, full⟩ :=
          allocEntry_fails (by exact mounted.congr rfl rfl) (fun n d write ⟨free_later, writes⟩ =>
            clears n d write ⟨by
              dsimp only at free_later
              by_cases same : d = ent
              · rw [same]
                exact free
              · rwa [Function.update_of_ne same] at free_later, writes⟩) rest
        · exact absurd same.1 nonzero
        · refine ⟨⟨kept.super, ?_, ?_, ?_⟩, fun sane => ?_⟩
          · dsimp only
            rw [kept.freemap, Function.update_idem, ← free, Function.update_eq_self]
          · dsimp only
            rw [kept.unused]
            exact Nat.sub_add_cancel counted
          · intro d used
            have other : d ≠ ent := by
              rintro rfl
              rw [free] at used
              cases used
            refine (kept.disk d ((Function.update_of_ne other ..).trans used)).trans ?_
            exact Function.update_of_ne other ..
          · have full := full (healthy sane)
            refine Nat.lt_succ_of_le (Finset.card_le_one_iff_subset_singleton.mpr ⟨ent, fun d member => ?_⟩)
            obtain ⟨inside, open_block⟩ := mem_freeSet.mp member
            by_contra other
            rw [Finset.mem_singleton] at other
            exact Finset.eq_empty_iff_forall_notMem.mp full d
              (mem_freeSet.mpr ⟨inside, (Function.update_of_ne other ..).trans open_block⟩)

/-! ## The block map -/

variable {node reached : Node} {index : Nat}

/-- The blocks that mapping a new file block takes. -/
def need (node : Node) (index : Nat) : Nat :=
  if index < ndirect then 1 else if node.din.indirect = 0 then 2 else 1

theorem not_fails_checkedInuse : ¬ Fails (checkedInuse ino) node ret reached := by
  intro failed
  rcases fails_bind.mp failed with failed | ⟨_, _, _, failed⟩
  · obtain ⟨_, inner, _⟩ := fails_within.mp failed
    exact not_fails_blockInuse inner
  · exact not_fails_assert failed

theorem not_fails_onlyIf_checkedInuse {condition : Bool} :
    ¬ Fails (onlyIf condition (checkedInuse ino)) node ret reached :=
  fun failed => not_fails_checkedInuse (fails_onlyIf.mp failed).2

/-- Mapping a block failed: the file is as it was. -/
structure Unmapped (node : Node) (reached : Node) : Prop where
  fs : Kept node.fs reached.fs
  same : ∃ fs, reached = { node with fs := fs }

theorem bmapGet_fails {create : Bool} (mounted : Mounted node.fs) (clears : ClearsFree node.fs)
    (failed : Fails (bmapGet index create) node ret reached) :
    Unmapped node reached ∧
      (Healthy node.fs → create = true ∧ (freeSet node.fs).card < need node index) := by
  unfold bmapGet at failed
  rcases fails_bind.mp failed with failed | ⟨_, _, got, failed⟩
  · exact absurd failed not_fails_gets
  obtain ⟨rfl, rfl⟩ := returns_gets.mp got
  split at failed
  · rename_i direct
    rw [need, if_pos direct]
    split at failed
    · rename_i empty
      simp only [Bool.and_eq_true, decide_eq_true_eq] at empty
      rcases fails_bind.mp failed with failed | ⟨_, _, _, failed⟩
      · obtain ⟨fs, alloc, rfl⟩ := fails_within.mp failed
        obtain ⟨full, rfl⟩ := blockAlloc_fails mounted clears alloc
        refine ⟨⟨⟨⟨rfl, rfl⟩, rfl, rfl, fun _ _ => rfl⟩, _, rfl⟩, fun _ => ⟨empty.2, ?_⟩⟩
        rw [full]
        decide
      · rcases fails_bind.mp failed with failed | ⟨_, _, _, failed⟩
        · exact absurd failed not_fails_modify
        rcases fails_bind.mp failed with failed | ⟨_, _, _, failed⟩
        · exact absurd failed not_fails_onlyIf_checkedInuse
        · exact absurd failed not_fails_pure
    · rcases fails_bind.mp failed with failed | ⟨_, _, _, failed⟩
      · exact absurd failed not_fails_onlyIf_checkedInuse
      · exact absurd failed not_fails_pure
  · rename_i indirect
    rw [need, if_neg indirect]
    split at failed
    · rcases fails_bind.mp failed with failed | ⟨_, _, _, failed⟩
      · obtain ⟨fs, sub, rfl⟩ := fails_within.mp failed
        obtain ⟨kept, cause⟩ := bmapGetSub_fails mounted clears sub
        exact ⟨⟨kept, _, rfl⟩, cause⟩
      · rcases fails_bind.mp failed with failed | ⟨_, _, _, failed⟩
        · rcases fails_bind.mp (fails_onlyIf.mp failed).2 with failed | ⟨_, _, _, failed⟩
          · exact absurd failed not_fails_assert
          · exact absurd failed not_fails_modify
        rcases fails_bind.mp failed with failed | ⟨_, _, _, failed⟩
        · exact absurd failed not_fails_onlyIf_checkedInuse
        · exact absurd failed not_fails_pure
    · exact absurd failed not_fails_stop

theorem bmapLoad_fails (mounted : Mounted node.fs) (clears : ClearsFree node.fs)
    (failed : Fails (bmapLoad index) node ret reached) :
    Unmapped node reached ∧ (Healthy node.fs → index = node.din.blocks ∧
      (freeSet node.fs).card < need node index) := by
  unfold bmapLoad at failed
  rcases fails_bind.mp failed with failed | ⟨_, _, got, failed⟩
  · exact absurd failed not_fails_gets
  obtain ⟨rfl, rfl⟩ := returns_gets.mp got
  rcases fails_bind.mp failed with failed | ⟨_, _, checked, failed⟩
  · exact absurd failed not_fails_assert
  obtain ⟨_, rfl⟩ := returns_assert.mp checked
  rcases fails_bind.mp failed with failed | ⟨_, _, _, failed⟩
  · obtain ⟨unmapped, cause⟩ := bmapGet_fails mounted clears failed
    exact ⟨unmapped, fun healthy => ⟨of_decide_eq_true (cause healthy).1, (cause healthy).2⟩⟩
  rcases fails_bind.mp failed with failed | ⟨_, _, _, failed⟩
  · exact absurd failed not_fails_checkedInuse
  rcases fails_bind.mp failed with failed | ⟨_, _, _, failed⟩
  · exact absurd (fails_onlyIf.mp failed).2 not_fails_modify
  · exact absurd failed not_fails_pure

/-- Looking up a block changes nothing when it fails, either. -/
theorem bmapLoad_lookup_fails (mounted : Mounted node.fs) (inside : index < node.din.blocks)
    (failed : Fails (bmapLoad index) node ret reached) :
    ∃ faults, reached = { node with fs := { node.fs with faults := faults } } := by
  unfold bmapLoad at failed
  rcases fails_bind.mp failed with failed | ⟨_, _, got, rest⟩
  · exact absurd failed not_fails_gets
  obtain ⟨rfl, rfl⟩ := returns_gets.mp got
  rw [decide_eq_false (by omega : ¬ index = node.din.blocks)] at rest
  rcases fails_bind.mp rest with failed | ⟨_, _, checked, rest⟩
  · exact absurd failed not_fails_assert
  obtain ⟨_, rfl⟩ := returns_assert.mp checked
  rcases fails_bind.mp rest with getting | ⟨_, _, _, rest⟩
  · unfold bmapGet at getting
    rcases fails_bind.mp getting with failed | ⟨_, _, got, getting⟩
    · exact absurd failed not_fails_gets
    obtain ⟨rfl, rfl⟩ := returns_gets.mp got
    split at getting
    · rw [if_neg (by simp)] at getting
      rcases fails_bind.mp getting with failed | ⟨_, _, _, failed⟩
      · exact absurd failed not_fails_onlyIf_checkedInuse
      · exact absurd failed not_fails_pure
    · split at getting
      · rcases fails_bind.mp getting with sub | ⟨_, _, _, getting⟩
        · obtain ⟨fs, inner, rfl⟩ := fails_within.mp sub
          rcases fails_bind.mp inner with failed | ⟨_, _, checked, entry⟩
          · exact absurd failed not_fails_assert
          obtain ⟨_, rfl⟩ := returns_assert.mp checked
          split at entry
          · rcases fails_bind.mp entry with loading | ⟨_, _, _, entry⟩
            · obtain ⟨_, faults, rfl⟩ := rbuf_fails mounted loading
              exact ⟨faults, rfl⟩
            · rw [if_pos (by simp)] at entry
              exact absurd entry not_fails_pure
          · rw [if_pos (by simp)] at entry
            exact absurd entry not_fails_pure
        rcases fails_bind.mp getting with failed | ⟨_, _, _, getting⟩
        · rcases fails_bind.mp (fails_onlyIf.mp failed).2 with failed | ⟨_, _, _, failed⟩
          · exact absurd failed not_fails_assert
          · exact absurd failed not_fails_modify
        rcases fails_bind.mp getting with failed | ⟨_, _, _, failed⟩
        · exact absurd failed not_fails_onlyIf_checkedInuse
        · exact absurd failed not_fails_pure
      · exact absurd getting not_fails_stop
  rcases fails_bind.mp rest with failed | ⟨_, _, _, rest⟩
  · exact absurd failed not_fails_checkedInuse
  rcases fails_bind.mp rest with failed | ⟨_, _, _, failed⟩
  · exact absurd (fails_onlyIf.mp failed).2 not_fails_modify
  · exact absurd failed not_fails_pure

end Ucore.Sfs
