import Ucore.Sfs

/-! The block map of one file. Looking a block up changes nothing; extending the
file by one block adds that block to the map and touches no block in use but
the file's own indirect block. -/
namespace Ucore.Sfs
open Call

variable {sfs after : SfsFs} {block data : Block} {blkno len offset ino : Nat}

/-- `sfs_do_mount` has compared the superblock with the device, a ramdisk whose
size in bytes is a 32-bit number. -/
structure Mounted (sfs : SfsFs) : Prop where
  inside : sfs.blocks ≤ sfs.dBlocks
  small : sfs.dBlocks < 2 ^ 20

theorem Mounted.congr (mounted : Mounted sfs) (blocks : after.blocks = sfs.blocks)
    (device : after.dBlocks = sfs.dBlocks) : Mounted after :=
  ⟨by rw [blocks, device]; exact mounted.inside, by rw [device]; exact mounted.small⟩

/-! ## Blocks -/

theorem disk0Io_returns {data : Option Block} (ran : Returns (disk0Io offset data) sfs block after) :
    ∃ faults, match data with
      | none => block = sfs.disk (offset / blksize) ∧ after = { sfs with faults := faults }
      | some data => after = { sfs with
          faults := faults, disk := Function.update sfs.disk (offset / blksize) data } := by
  unfold disk0Io at ran
  obtain ⟨_, _, got, ran⟩ := returns_bind.mp ran
  obtain ⟨rfl, rfl⟩ := returns_gets.mp got
  split at ran
  · exact absurd ran (not_returns_fail _)
  · obtain ⟨_, _, stepped, ran⟩ := returns_bind.mp ran
    obtain rfl := returns_modify.mp stepped
    split at ran
    · exact absurd ran (not_returns_fail _)
    · cases data with
      | none =>
        obtain ⟨rfl, rfl⟩ := returns_pure.mp ran
        exact ⟨_, rfl, rfl⟩
      | some data =>
        obtain ⟨_, _, stored, ran⟩ := returns_bind.mp ran
        obtain rfl := returns_modify.mp stored
        obtain ⟨_, rfl⟩ := returns_pure.mp ran
        exact ⟨_, rfl⟩

/-- Below 2^20 blocks the offset does not wrap. -/
theorem Mounted.at_block (mounted : Mounted sfs) (below : blkno < sfs.blocks) :
    blkno * blksize % 2 ^ 32 = blkno * blksize ∧ blkno * blksize % 2 ^ 32 / blksize = blkno := by
  have inside := mounted.inside
  have small := mounted.small
  have same : blkno * blksize % 2 ^ 32 = blkno * blksize := by
    rw [blksize, Nat.mod_eq_of_lt (by omega)]
  rw [same]
  exact ⟨rfl, Nat.mul_div_cancel _ (by decide)⟩

theorem rwblockNolock_returns {data : Option Block} {check : Bool}
    (ran : Returns (rwblockNolock blkno data check) sfs block after) :
    (check = true → blkno ≠ 0) ∧ blkno < sfs.blocks ∧
      Returns (disk0Io (blkno * blksize % 2 ^ 32) data) sfs block after := by
  unfold rwblockNolock at ran
  obtain ⟨_, _, got, ran⟩ := returns_bind.mp ran
  obtain ⟨rfl, rfl⟩ := returns_gets.mp got
  obtain ⟨_, _, checked, ran⟩ := returns_bind.mp ran
  obtain ⟨valid, rfl⟩ := returns_assert.mp checked
  simp only [Bool.and_eq_true, Bool.or_eq_true, decide_eq_true_eq, Bool.not_eq_true'] at valid
  refine ⟨fun on => ?_, valid.2, ran⟩
  rcases valid.1 with nonzero | off
  · exact nonzero
  · rw [on] at off
    cases off

theorem rblockNolock_returns (ran : Returns (rblockNolock blkno true) sfs block after)
    (mounted : Mounted sfs) :
    blkno ≠ 0 ∧ blkno < sfs.blocks ∧ block = sfs.disk blkno ∧
      ∃ faults, after = { sfs with faults := faults } := by
  obtain ⟨nonzero, below, io⟩ := rwblockNolock_returns ran
  obtain ⟨faults, same, rfl⟩ := disk0Io_returns io
  rw [(mounted.at_block below).2] at same
  exact ⟨nonzero rfl, below, same, faults, rfl⟩

theorem wblockNolock_returns {result : Unit}
    (ran : Returns (wblockNolock blkno true data) sfs result after) (mounted : Mounted sfs) :
    blkno ≠ 0 ∧ blkno < sfs.blocks ∧ ∃ faults,
      after = { sfs with faults := faults, disk := Function.update sfs.disk blkno data } := by
  obtain ⟨_, _, wrote, ran⟩ := returns_bind.mp ran
  obtain ⟨_, rfl⟩ := returns_pure.mp ran
  obtain ⟨nonzero, below, io⟩ := rwblockNolock_returns wrote
  obtain ⟨faults, rfl⟩ := disk0Io_returns io
  rw [(mounted.at_block below).2]
  exact ⟨nonzero rfl, below, faults, rfl⟩

theorem rbuf_returns (ran : Returns (rbuf len blkno offset) sfs block after) (mounted : Mounted sfs) :
    block = sfs.disk blkno ∧ ∃ faults, after = { sfs with faults := faults } := by
  obtain ⟨_, _, checked, ran⟩ := returns_bind.mp ran
  obtain ⟨_, rfl⟩ := returns_assert.mp checked
  obtain ⟨_, _, same, faults, rfl⟩ := rblockNolock_returns ran mounted
  exact ⟨same, faults, rfl⟩

theorem wbuf_returns {result : Unit} (ran : Returns (wbuf data len blkno offset) sfs result after)
    (mounted : Mounted sfs) :
    ∃ faults, after = { sfs with
      faults := faults
      disk := Function.update sfs.disk blkno (overlay (sfs.disk blkno) data len offset) } := by
  obtain ⟨_, _, checked, ran⟩ := returns_bind.mp ran
  obtain ⟨_, rfl⟩ := returns_assert.mp checked
  obtain ⟨_, _, loaded, ran⟩ := returns_bind.mp ran
  obtain ⟨_, _, rfl, _, rfl⟩ := rblockNolock_returns loaded mounted
  obtain ⟨_, _, faults, rfl⟩ := wblockNolock_returns ran (mounted.congr rfl rfl)
  exact ⟨faults, rfl⟩

/-! ## The freemap -/

theorem blockInuse_returns {inuse : Bool} (ran : Returns (blockInuse ino) sfs inuse after) :
    ino ≠ 0 ∧ ino < sfs.blocks ∧ inuse = !sfs.freemap ino ∧ after = sfs := by
  obtain ⟨_, _, got, ran⟩ := returns_bind.mp ran
  obtain ⟨rfl, rfl⟩ := returns_gets.mp got
  obtain ⟨_, _, checked, ran⟩ := returns_bind.mp ran
  obtain ⟨valid, rfl⟩ := returns_assert.mp checked
  obtain ⟨rfl, rfl⟩ := returns_pure.mp ran
  simp only [Bool.and_eq_true, decide_eq_true_eq] at valid
  exact ⟨valid.1, valid.2, rfl, rfl⟩

theorem bitmapAlloc_returns (ran : Returns bitmapAlloc sfs ino after) :
    sfs.freemap ino = true ∧ after = { sfs with freemap := Function.update sfs.freemap ino false } := by
  obtain ⟨_, _, got, ran⟩ := returns_bind.mp ran
  obtain ⟨rfl, rfl⟩ := returns_gets.mp got
  split at ran
  · exact absurd ran (not_returns_fail _)
  rename_i index at_index
  obtain ⟨_, _, marked, ran⟩ := returns_bind.mp ran
  obtain rfl := returns_modify.mp marked
  obtain ⟨rfl, rfl⟩ := returns_pure.mp ran
  exact ⟨List.find?_some at_index, rfl⟩

/-- A new block was free; it is marked and cleared. -/
theorem blockAlloc_returns (ran : Returns blockAlloc sfs ino after) (mounted : Mounted sfs) :
    sfs.freemap ino = true ∧ ino ≠ 0 ∧ ino < sfs.blocks ∧ ∃ faults, after = { sfs with
      unusedBlocks := sfs.unusedBlocks - 1
      superDirty := true
      freemap := Function.update sfs.freemap ino false
      disk := Function.update sfs.disk ino fun _ => 0
      faults := faults } := by
  unfold blockAlloc at ran
  obtain ⟨found, _, alloc, ran⟩ := returns_bind.mp ran
  obtain ⟨free, rfl⟩ := bitmapAlloc_returns alloc
  obtain ⟨_, _, got, ran⟩ := returns_bind.mp ran
  obtain ⟨rfl, rfl⟩ := returns_gets.mp got
  obtain ⟨_, _, checked, ran⟩ := returns_bind.mp ran
  obtain ⟨_, rfl⟩ := returns_assert.mp checked
  obtain ⟨_, _, counted, ran⟩ := returns_bind.mp ran
  rw [returns_modify] at counted
  subst counted
  obtain ⟨_, _, tested, ran⟩ := returns_bind.mp ran
  obtain ⟨nonzero, below, _, rfl⟩ := blockInuse_returns tested
  obtain ⟨_, _, checked, ran⟩ := returns_bind.mp ran
  obtain ⟨_, rfl⟩ := returns_assert.mp checked
  obtain ⟨_, _, cleared, ran⟩ := returns_bind.mp ran
  obtain ⟨rfl, rfl⟩ := returns_pure.mp ran
  obtain ⟨_, _, wrote, cleared⟩ := returns_bind.mp cleared
  obtain ⟨_, rfl⟩ := returns_pure.mp cleared
  obtain ⟨_, _, faults, rfl⟩ := wblockNolock_returns wrote (mounted.congr rfl rfl)
  exact ⟨free, nonzero, below, faults, rfl⟩

/-! ## The indirect block -/

theorem overlay_inside (block data : Block) (inside : offset ≤ i) (below : i < offset + len) :
    overlay block data len offset i = data (i - offset) :=
  if_pos ⟨inside, below⟩

theorem overlay_outside (block data : Block) (outside : i < offset ∨ offset + len ≤ i) :
    overlay block data len offset i = block i :=
  if_neg (by omega)

/-- An entry reads back as it was written. -/
theorem loadU32_overlay_same (block : Block) (small : value < 2 ^ 32) :
    loadU32 (overlay block (bytesU32 value) 4 offset) offset = value := by
  unfold loadU32
  rw [overlay_inside _ _ (by omega) (by omega), overlay_inside _ _ (by omega) (by omega),
    overlay_inside _ _ (by omega) (by omega), overlay_inside _ _ (by omega) (by omega)]
  simp only [bytesU32, UInt8.toNat_ofNat', Nat.sub_self, Nat.add_sub_cancel_left]
  omega

theorem loadU32_overlay_other (block data : Block) (apart : j ≠ i) :
    loadU32 (overlay block data 4 (i * 4)) (j * 4) = loadU32 block (j * 4) := by
  unfold loadU32
  rw [overlay_outside _ _ (by omega), overlay_outside _ _ (by omega),
    overlay_outside _ _ (by omega), overlay_outside _ _ (by omega)]

theorem loadU32_zero (offset : Nat) : loadU32 (fun _ => 0) offset = 0 := rfl

/-- The new block of an empty entry, with its number in the entry block. -/
theorem allocEntry_returns {entp ent : Nat} {result : Nat × Nat}
    (ran : Returns (allocEntry entp ent offset) sfs result after) (mounted : Mounted sfs) :
    result.2 = ent ∧ sfs.freemap result.1 = true ∧ result.1 ≠ 0 ∧ result.1 < sfs.blocks ∧
      after.blocks = sfs.blocks ∧ after.dBlocks = sfs.dBlocks ∧
      after.freemap = Function.update sfs.freemap result.1 false ∧
      after.disk = Function.update (Function.update sfs.disk result.1 fun _ => 0) ent
        (overlay (Function.update sfs.disk result.1 (fun _ => 0) ent) (bytesU32 result.1) 4 offset) := by
  obtain ⟨outcome, _, tried, ran⟩ := returns_bind.mp ran
  cases outcome with
  | error ret =>
    obtain ⟨_, _, _, ran⟩ := returns_bind.mp ran
    exact absurd ran (not_returns_fail _)
  | ok ino =>
    obtain ⟨free, nonzero, below, faults, rfl⟩ := blockAlloc_returns (returns_attempt_ok.mp tried) mounted
    obtain ⟨outcome, _, tried, ran⟩ := returns_bind.mp ran
    cases outcome with
    | error ret =>
      obtain ⟨_, _, _, ran⟩ := returns_bind.mp ran
      obtain ⟨_, _, _, ran⟩ := returns_bind.mp ran
      exact absurd ran (not_returns_fail _)
    | ok stored =>
      obtain ⟨_, rfl⟩ := wbuf_returns (returns_attempt_ok.mp tried) (mounted.congr rfl rfl)
      obtain ⟨rfl, rfl⟩ := returns_pure.mp ran
      exact ⟨rfl, free, nonzero, below, rfl, rfl, rfl, rfl⟩

theorem bmapGetSub_lookup {entp index : Nat} {result : Nat × Nat}
    (ran : Returns (bmapGetSub entp index false) sfs result after) (mounted : Mounted sfs) :
    result = (if entp = 0 then 0 else loadU32 (sfs.disk entp) (index * 4), entp) ∧
      ∃ faults, after = { sfs with faults := faults } := by
  obtain ⟨_, _, checked, ran⟩ := returns_bind.mp ran
  obtain ⟨_, rfl⟩ := returns_assert.mp checked
  split at ran
  · rename_i present
    obtain ⟨_, _, loaded, ran⟩ := returns_bind.mp ran
    obtain ⟨rfl, faults, rfl⟩ := rbuf_returns loaded mounted
    simp only [Bool.not_false, Bool.or_true, ↓reduceIte] at ran
    obtain ⟨rfl, rfl⟩ := returns_pure.mp ran
    exact ⟨by rw [if_neg present], faults, rfl⟩
  · rename_i absent
    obtain rfl := not_not.mp absent
    simp only [Bool.not_false, ↓reduceIte] at ran
    obtain ⟨rfl, rfl⟩ := returns_pure.mp ran
    exact ⟨rfl, _, rfl⟩

def InUse (sfs : SfsFs) (blkno : Nat) : Prop :=
  blkno ≠ 0 ∧ blkno < sfs.blocks ∧ sfs.freemap blkno = false

/-- An entry got the new block `ino`, in the entry block there was or a new one. -/
structure EntryMade (sfs : SfsFs) (entp index ino ent : Nat) (after : SfsFs) : Prop where
  fresh : sfs.freemap ino = true
  valid : ino ≠ 0 ∧ ino < sfs.blocks
  super : after.blocks = sfs.blocks ∧ after.dBlocks = sfs.dBlocks
  freemap : after.freemap ino = false ∧ ∀ d, sfs.freemap d = false → after.freemap d = false
  entry : (entp ≠ 0 ∧ ent = entp) ∨
    (entp = 0 ∧ sfs.freemap ent = true ∧ InUse after ent ∧ ent ≠ ino)
  taken : ∀ d, sfs.freemap d = true → after.freemap d = true ∨ d = ino ∨ (entp = 0 ∧ d = ent)
  cleared : after.disk ino = fun _ => 0
  disk : ∀ d, d ≠ ino → d ≠ ent → after.disk d = sfs.disk d
  loaded : loadU32 (after.disk ent) (index * 4) = ino
  others : ∀ j ≠ index, loadU32 (after.disk ent) (j * 4) =
    if entp = 0 then 0 else loadU32 (sfs.disk entp) (j * 4)

theorem allocEntry_made {entp ent index : Nat} {result : Nat × Nat}
    (ran : Returns (allocEntry entp ent (index * 4)) sfs result after) (mounted : Mounted sfs)
    (used : sfs.freemap ent = false) :
    result.2 = ent ∧ sfs.freemap result.1 = true ∧ result.1 ≠ 0 ∧ result.1 < sfs.blocks ∧
      after.blocks = sfs.blocks ∧ after.dBlocks = sfs.dBlocks ∧ ent ≠ result.1 ∧
      after.freemap = Function.update sfs.freemap result.1 false ∧
      (∀ d, d ≠ result.1 → d ≠ ent → after.disk d = sfs.disk d) ∧
      after.disk result.1 = (fun _ => 0) ∧ loadU32 (after.disk ent) (index * 4) = result.1 ∧
      ∀ j ≠ index, loadU32 (after.disk ent) (j * 4) = loadU32 (sfs.disk ent) (j * 4) := by
  obtain ⟨same, free, nonzero, below, blocks, device, freemap, disk⟩ := allocEntry_returns ran mounted
  have apart : ent ≠ result.1 := by
    intro eq
    rw [eq, free] at used
    cases used
  have inside := mounted.inside
  have small := mounted.small
  refine ⟨same, free, nonzero, below, blocks, device, apart, freemap, ?_, ?_, ?_, ?_⟩
  · intro d other own
    rw [disk, Function.update_of_ne own, Function.update_of_ne other]
  · rw [disk, Function.update_of_ne apart.symm, Function.update_self]
  · rw [disk, Function.update_self]
    exact loadU32_overlay_same _ (by omega)
  · intro j other
    rw [disk, Function.update_self, loadU32_overlay_other _ _ other, Function.update_of_ne apart]

/-- A new block for an empty entry. -/
theorem bmapGetSub_create {entp index : Nat} {result : Nat × Nat}
    (ran : Returns (bmapGetSub entp index true) sfs result after) (mounted : Mounted sfs)
    (empty : entp ≠ 0 → loadU32 (sfs.disk entp) (index * 4) = 0)
    (used : entp ≠ 0 → sfs.freemap entp = false) :
    EntryMade sfs entp index result.1 result.2 after := by
  obtain ⟨_, _, checked, ran⟩ := returns_bind.mp ran
  obtain ⟨_, rfl⟩ := returns_assert.mp checked
  split at ran
  · rename_i present
    obtain ⟨_, _, loaded, ran⟩ := returns_bind.mp ran
    obtain ⟨rfl, faults, rfl⟩ := rbuf_returns loaded mounted
    simp only [empty present, ne_eq, not_true_eq_false, decide_false, Bool.not_true, Bool.or_self,
      Bool.false_eq_true, ↓reduceIte] at ran
    obtain ⟨same, free, nonzero, below, blocks, device, apart, freemap, disk, cleared, own, others⟩ :=
      allocEntry_made ran (mounted.congr rfl rfl) (used present)
    refine ⟨free, ⟨nonzero, below⟩, ⟨blocks, device⟩, ?_, .inl ⟨present, same⟩, ?_, cleared, ?_, ?_, ?_⟩
    · rw [freemap]
      refine ⟨Function.update_self .., fun d held => ?_⟩
      by_cases new : d = result.1
      · rw [new, Function.update_self]
      · rwa [Function.update_of_ne new]
    · intro d open_block
      by_cases new : d = result.1
      · exact .inr (.inl new)
      · rw [freemap, Function.update_of_ne new]
        exact .inl open_block
    · rw [same]
      exact disk
    · rw [same]
      exact own
    · intro j other
      rw [same, if_neg present]
      exact others j other
  · rename_i absent
    obtain rfl := not_not.mp absent
    simp only [Bool.not_true, Bool.false_eq_true, ↓reduceIte] at ran
    obtain ⟨ent, _, alloc, ran⟩ := returns_bind.mp ran
    obtain ⟨free_ent, nonzero_ent, below_ent, faults, rfl⟩ := blockAlloc_returns alloc mounted
    obtain ⟨same, free, nonzero, below, blocks, device, apart, freemap, disk, cleared, own, others⟩ :=
      allocEntry_made ran (mounted.congr rfl rfl) (Function.update_self ..)
    dsimp only at free freemap disk others blocks device below
    have free : sfs.freemap result.1 = true := by
      rwa [Function.update_of_ne apart.symm] at free
    refine ⟨free, ⟨nonzero, below⟩, ⟨blocks, device⟩, ?_, .inr ⟨rfl, ?_, ⟨?_, ?_, ?_⟩, ?_⟩, ?_,
      cleared, ?_, ?_, ?_⟩
    · rw [freemap]
      refine ⟨Function.update_self .., fun d held => ?_⟩
      by_cases new : d = result.1
      · rw [new, Function.update_self]
      · rw [Function.update_of_ne new]
        by_cases entry : d = ent
        · rw [entry, Function.update_self]
        · rwa [Function.update_of_ne entry]
    · rwa [same]
    · rwa [same]
    · rw [same, blocks]
      exact below_ent
    · rw [same, freemap, Function.update_of_ne apart, Function.update_self]
    · rwa [same]
    · intro d open_block
      by_cases new : d = result.1
      · exact .inr (.inl new)
      · by_cases entry : d = ent
        · exact .inr (.inr ⟨rfl, entry.trans same.symm⟩)
        · rw [freemap, Function.update_of_ne new, Function.update_of_ne entry]
          exact .inl open_block
    · rw [same]
      intro d other own
      rw [disk d other own, Function.update_of_ne own]
    · rw [same]
      exact own
    · intro j other
      rw [same, others j other, Function.update_self, loadU32_zero, if_pos rfl]

/-! ## The block map -/

variable {node reached : Node} {index : Nat}

/-- The disk block mapped for a file block, or 0. -/
def fileBlock (node : Node) (index : Nat) : Nat :=
  if index < ndirect then node.din.direct index
  else if node.din.indirect = 0 then 0
  else loadU32 (node.fs.disk node.din.indirect) ((index - ndirect) * 4)

theorem fileBlock_direct (below : index < ndirect) : fileBlock node index = node.din.direct index :=
  if_pos below

theorem fileBlock_absent (above : ¬ index < ndirect) (absent : node.din.indirect = 0) :
    fileBlock node index = 0 := by
  rw [fileBlock, if_neg above, if_pos absent]

theorem fileBlock_indirect (above : ¬ index < ndirect) (present : node.din.indirect ≠ 0) :
    fileBlock node index = loadU32 (node.fs.disk node.din.indirect) ((index - ndirect) * 4) := by
  rw [fileBlock, if_neg above, if_neg present]

/-- A file with a block map: any blocks in use, each once, in any order. -/
structure Sound (node : Node) : Prop where
  mounted : Mounted node.fs
  plain : node.din.type ≠ .dir
  room : node.din.blocks ≤ ndirect + blkNentry
  data : ∀ i < node.din.blocks, InUse node.fs (fileBlock node i)
  apart : ∀ i < node.din.blocks, ∀ j < node.din.blocks, fileBlock node i = fileBlock node j → i = j
  unmapped : ∀ i, node.din.blocks ≤ i → i < ndirect + blkNentry → fileBlock node i = 0
  indirect : node.din.indirect ≠ 0 → InUse node.fs node.din.indirect ∧
    ∀ i < node.din.blocks, fileBlock node i ≠ node.din.indirect

/-- The file got one block more: `ino`. -/
structure Grown (node : Node) (ino : Nat) (after : Node) : Prop where
  fresh : node.fs.freemap ino = true
  valid : ino ≠ 0 ∧ ino < node.fs.blocks
  room : node.din.blocks < ndirect + blkNentry
  blocks : after.din.blocks = node.din.blocks + 1
  map : ∀ i < ndirect + blkNentry,
    fileBlock after i = if i = node.din.blocks then ino else fileBlock node i
  size : after.din.size = node.din.size ∧ after.din.type = node.din.type
  buffer : after.buf = node.buf ∧ after.moved = node.moved
  super : after.fs.blocks = node.fs.blocks ∧ after.fs.dBlocks = node.fs.dBlocks
  freemap : after.fs.freemap ino = false ∧
    ∀ d, node.fs.freemap d = false → after.fs.freemap d = false
  indirect : after.din.indirect = node.din.indirect ∨ (node.din.indirect = 0 ∧
    node.fs.freemap after.din.indirect = true ∧ InUse after.fs after.din.indirect ∧
    after.din.indirect ≠ ino)
  disk : ∀ d, d ≠ ino → (d ≠ 0 → d ≠ after.din.indirect) → after.fs.disk d = node.fs.disk d
  direct : node.din.blocks < ndirect → after.din.indirect = node.din.indirect
  cleared : after.fs.disk ino = fun _ => 0
  taken : ∀ d, node.fs.freemap d = true →
    after.fs.freemap d = true ∨ d = ino ∨ (d = after.din.indirect ∧ d ≠ node.din.indirect)

theorem checkedInuse_returns {result : Unit} (ran : Returns (checkedInuse ino) node result reached) :
    InUse node.fs ino ∧ reached = node := by
  obtain ⟨inuse, _, tested, ran⟩ := returns_bind.mp ran
  obtain ⟨fs, looked, rfl⟩ := returns_within.mp tested
  obtain ⟨nonzero, below, rfl, rfl⟩ := blockInuse_returns looked
  obtain ⟨used, rfl⟩ := returns_assert.mp ran
  simp only [Bool.not_eq_true'] at used
  exact ⟨⟨nonzero, below, used⟩, rfl⟩

theorem onlyIf_checkedInuse {result : Unit}
    (ran : Returns (onlyIf (ino ≠ 0) (checkedInuse ino)) node result reached) : reached = node := by
  rcases returns_onlyIf.mp ran with ⟨_, ran⟩ | ⟨_, rfl⟩
  · exact (checkedInuse_returns ran).2
  · rfl

/-- Looking up a block that exists. -/
theorem bmapGet_lookup (ran : Returns (bmapGet index false) node ino reached)
    (mounted : Mounted node.fs) :
    ino = fileBlock node index ∧
      ∃ faults, reached = { node with fs := { node.fs with faults := faults } } := by
  unfold bmapGet at ran
  obtain ⟨_, _, got, ran⟩ := returns_bind.mp ran
  obtain ⟨rfl, rfl⟩ := returns_gets.mp got
  unfold fileBlock
  split at ran
  · rename_i direct
    rw [if_pos direct]
    simp only [Bool.and_false, Bool.false_eq_true, ↓reduceIte] at ran
    obtain ⟨_, _, checked, ran⟩ := returns_bind.mp ran
    obtain rfl := onlyIf_checkedInuse checked
    obtain ⟨rfl, rfl⟩ := returns_pure.mp ran
    exact ⟨rfl, _, rfl⟩
  · rename_i indirect
    rw [if_neg indirect]
    split at ran
    · obtain ⟨⟨found, ent⟩, _, sub, ran⟩ := returns_bind.mp ran
      obtain ⟨fs, looked, rfl⟩ := returns_within.mp sub
      obtain ⟨same, faults, rfl⟩ := bmapGetSub_lookup looked mounted
      obtain ⟨rfl, rfl⟩ := Prod.mk.inj same
      obtain ⟨_, _, kept, ran⟩ := returns_bind.mp ran
      rcases returns_onlyIf.mp kept with ⟨changed, _⟩ | ⟨_, rfl⟩
      · simp at changed
      obtain ⟨_, _, checked, ran⟩ := returns_bind.mp ran
      obtain rfl := onlyIf_checkedInuse checked
      obtain ⟨rfl, rfl⟩ := returns_pure.mp ran
      exact ⟨rfl, faults, rfl⟩
    · exact absurd ran not_returns_stop

def withBlock (node : Node) : Node :=
  { node with din := { node.din with blocks := node.din.blocks + 1 } }

theorem Sound.indirect_ne (sound : Sound node) (fresh : node.fs.freemap ino = true)
    (present : node.din.indirect ≠ 0) : node.din.indirect ≠ ino := by
  intro same
  have used := (sound.indirect present).1.2.2
  rw [same, fresh] at used
  cases used

/-- A new block behind the last one. -/
theorem bmapGet_create (sound : Sound node)
    (ran : Returns (bmapGet node.din.blocks true) node ino reached) :
    Grown node ino (withBlock reached) := by
  unfold bmapGet at ran
  obtain ⟨_, _, got, ran⟩ := returns_bind.mp ran
  obtain ⟨rfl, rfl⟩ := returns_gets.mp got
  split at ran
  · rename_i direct
    have room : node.din.blocks < ndirect + blkNentry := by
      have positive : 0 < blkNentry := by decide
      omega
    have empty := sound.unmapped node.din.blocks (Nat.le_refl _) room
    rw [fileBlock, if_pos direct] at empty
    rw [if_pos (by simp [empty])] at ran
    obtain ⟨new, _, alloc, ran⟩ := returns_bind.mp ran
    obtain ⟨fs, got, rfl⟩ := returns_within.mp alloc
    obtain ⟨fresh, nonzero, below, faults, rfl⟩ := blockAlloc_returns got sound.mounted
    obtain ⟨_, _, stored, ran⟩ := returns_bind.mp ran
    rw [returns_modify] at stored
    subst stored
    obtain ⟨_, _, checked, ran⟩ := returns_bind.mp ran
    obtain rfl := onlyIf_checkedInuse checked
    obtain ⟨rfl, rfl⟩ := returns_pure.mp ran
    refine ⟨fresh, ⟨nonzero, below⟩, room, rfl, ?_, ⟨rfl, rfl⟩, ⟨rfl, rfl⟩, ⟨rfl, rfl⟩, ?_, .inl rfl, ?_,
      fun _ => rfl, Function.update_self .., ?_⟩
    · intro i _
      by_cases below : i < ndirect
      · refine (fileBlock_direct below).trans ?_
        by_cases same : i = node.din.blocks
        · rw [if_pos same, same]
          exact Function.update_self ..
        · rw [if_neg same, fileBlock_direct below]
          exact Function.update_of_ne same ..
      · rw [if_neg (by omega)]
        by_cases absent : node.din.indirect = 0
        · exact (fileBlock_absent below (by exact absent)).trans (fileBlock_absent below absent).symm
        · refine (fileBlock_indirect below (by exact absent)).trans ?_
          rw [fileBlock_indirect below absent]
          exact congrArg (loadU32 · _) (Function.update_of_ne (sound.indirect_ne fresh absent) ..)
    · refine ⟨Function.update_self .., fun d held => ?_⟩
      by_cases same : d = new
      · rw [same]
        exact Function.update_self ..
      · rw [← held]
        exact Function.update_of_ne same ..
    · intro d other _
      exact Function.update_of_ne other ..
    · intro d open_block
      by_cases same : d = new
      · exact .inr (.inl same)
      · exact .inl ((Function.update_of_ne same ..).trans open_block)
  · rename_i indirect
    split at ran
    · rename_i inside
      have room : node.din.blocks < ndirect + blkNentry := by omega
      have empty := sound.unmapped node.din.blocks (Nat.le_refl _) room
      rw [fileBlock, if_neg indirect] at empty
      obtain ⟨⟨new, ent⟩, _, sub, ran⟩ := returns_bind.mp ran
      obtain ⟨fs, got, rfl⟩ := returns_within.mp sub
      have made := bmapGetSub_create got sound.mounted
        (fun present => by rwa [if_neg present] at empty)
        (fun present => (sound.indirect present).1.2.2)
      obtain ⟨_, between, linked, rest⟩ := returns_bind.mp ran
      obtain ⟨_, _, checked, ending⟩ := returns_bind.mp rest
      obtain ⟨same_ino, same_node⟩ := returns_pure.mp ending
      rw [onlyIf_checkedInuse checked] at same_node
      subst same_node same_ino
      obtain ⟨dirty, rfl⟩ : ∃ dirty, between =
          { node with fs := fs, din := { node.din with indirect := ent }, dirty := dirty } := by
        rcases returns_onlyIf.mp linked with ⟨_, link⟩ | ⟨same, rfl⟩
        · obtain ⟨_, _, checked, link⟩ := returns_bind.mp link
          obtain ⟨_, rfl⟩ := returns_assert.mp checked
          rw [returns_modify] at link
          exact ⟨true, link.symm⟩
        · obtain rfl : ent = node.din.indirect := by simpa using same
          exact ⟨node.dirty, rfl⟩
      have present : ent ≠ 0 := by
        rcases made.entry with ⟨present, same⟩ | ⟨_, _, used, _⟩
        · rwa [← same] at present
        · exact used.1
      refine ⟨made.fresh, made.valid, room, rfl, ?_, ⟨rfl, rfl⟩, ⟨rfl, rfl⟩, made.super, made.freemap,
        ?_, ?_, fun below => absurd below indirect, made.cleared, fun d free => ?_⟩
      · intro i _
        by_cases below : i < ndirect
        · rw [if_neg (by omega)]
          refine (fileBlock_direct below).trans (Eq.symm ?_)
          exact fileBlock_direct below
        · refine (fileBlock_indirect below (by exact present)).trans ?_
          by_cases same : i = node.din.blocks
          · rw [if_pos same, same]
            exact made.loaded
          · rw [if_neg same]
            refine (made.others (i - ndirect) (by omega)).trans ?_
            split
            · rename_i absent
              exact (fileBlock_absent below absent).symm
            · rename_i held
              exact (fileBlock_indirect below held).symm
      · rcases made.entry with ⟨_, same⟩ | ⟨absent, fresh, used, apart⟩
        · exact .inl same
        · exact .inr ⟨absent, fresh, used, apart⟩
      · intro d other own
        refine made.disk d other ?_
        rintro rfl
        exact own present rfl
      · rcases made.taken d free with free | same | ⟨absent, rfl⟩
        · exact .inl free
        · exact .inr (.inl same)
        · exact .inr (.inr ⟨rfl, by rwa [absent]⟩)
    · exact absurd ran not_returns_stop

/-- What `sfs_bmap_load_nolock` finds: a block of the file, or the next one, new. -/
theorem bmapLoad_returns (sound : Sound node) (ran : Returns (bmapLoad index) node ino reached) :
    (index < node.din.blocks ∧ ino = fileBlock node index ∧
      ∃ faults, reached = { node with fs := { node.fs with faults := faults } }) ∨
    (index = node.din.blocks ∧ Grown node ino reached) := by
  obtain ⟨_, _, got, ran⟩ := returns_bind.mp ran
  obtain ⟨rfl, rfl⟩ := returns_gets.mp got
  obtain ⟨_, _, checked, ran⟩ := returns_bind.mp ran
  obtain ⟨inside, rfl⟩ := returns_assert.mp checked
  obtain ⟨_, _, found, rest⟩ := returns_bind.mp ran
  obtain ⟨_, _, checked, more⟩ := returns_bind.mp rest
  obtain ⟨_, rfl⟩ := checkedInuse_returns checked
  obtain ⟨_, _, counted, ending⟩ := returns_bind.mp more
  obtain ⟨rfl, rfl⟩ := returns_pure.mp ending
  by_cases last : index = node.din.blocks
  · rw [decide_eq_true last] at found counted
    subst last
    rcases returns_onlyIf.mp counted with ⟨_, grown⟩ | ⟨never, _⟩
    · rw [returns_modify] at grown
      subst grown
      exact .inr ⟨rfl, bmapGet_create sound found⟩
    · cases never
  · rw [decide_eq_false last] at found counted
    rcases returns_onlyIf.mp counted with ⟨never, _⟩ | ⟨_, rfl⟩
    · cases never
    · obtain ⟨same, faults, rfl⟩ := bmapGet_lookup found sound.mounted
      have le := of_decide_eq_true inside
      exact .inl ⟨by omega, same, faults, rfl⟩

end Ucore.Sfs
