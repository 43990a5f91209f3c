import Ucore.SfsSizeProofs

/-! The bytes of a file over a whole run. A position that becomes part of the
file reads zero as long as the bytes behind the old end are zero: a shrink does
not clear the rest of the last block. -/
namespace Ucore.Sfs
open Call Runs

variable {sfs : SfsFs} {node m after : Node} {ino index offset pos size blkoff alen : Nat} {ret : Int}

/-! ## Mapping a block that fails, whatever the device refuses -/

/-- What was in use still is, and has its content. -/
structure Spared (sfs after : SfsFs) : Prop where
  super : after.blocks = sfs.blocks ∧ after.dBlocks = sfs.dBlocks
  used : ∀ d, sfs.freemap d = false → after.freemap d = false ∧ after.disk d = sfs.disk d

section
variable {origin after : SfsFs} {entp ent : Nat}

theorem Spared.refl : Spared sfs sfs := ⟨⟨rfl, rfl⟩, fun _ used => ⟨used, rfl⟩⟩

theorem Spared.faults {faults : Nat → Nat → Bool → Option Int} (spared : Spared origin sfs) :
    Spared origin { sfs with faults := faults } :=
  ⟨spared.super, spared.used⟩

theorem Spared.free_before (spared : Spared origin sfs) (free : sfs.freemap ino = true) :
    origin.freemap ino = true := by
  cases before : origin.freemap ino with
  | true => rfl
  | false =>
    rw [(spared.used ino before).1] at free
    cases free

/-- Changes of a block that was free. -/
theorem Spared.change {disk : Nat → Block} {freemap : Nat → Bool} {unused : Nat} {dirty : Bool}
    {faults : Nat → Nat → Bool → Option Int} (spared : Spared origin sfs)
    (free : origin.freemap ino = true) (others : ∀ d, d ≠ ino → disk d = sfs.disk d)
    (marks : ∀ d, d ≠ ino → freemap d = sfs.freemap d) :
    Spared origin { sfs with
      unusedBlocks := unused, superDirty := dirty, freemap := freemap, disk := disk, faults := faults } := by
  refine ⟨spared.super, fun d used => ?_⟩
  have other : d ≠ ino := by
    rintro rfl
    rw [free] at used
    cases used
  obtain ⟨kept, same⟩ := spared.used d used
  exact ⟨(marks d other).trans kept, (others d other).trans same⟩

/-- A block that could not be cleared is marked, but nothing in use has changed. -/
theorem blockAlloc_spared (mounted : Mounted sfs) (spared : Spared origin sfs)
    (failed : Fails blockAlloc sfs ret after) : Spared origin after := by
  unfold blockAlloc at failed
  rcases fails_bind.mp failed with failed | ⟨_, _, alloc, failed⟩
  · rwa [bitmapAlloc_fails failed]
  obtain ⟨free, rfl⟩ := bitmapAlloc_returns alloc
  rcases fails_bind.mp failed with failed | ⟨_, _, got, failed⟩
  · exact absurd failed not_fails_gets
  obtain ⟨rfl, rfl⟩ := returns_gets.mp got
  rcases fails_bind.mp failed with failed | ⟨_, _, checked, failed⟩
  · exact absurd failed not_fails_assert
  obtain ⟨_, rfl⟩ := returns_assert.mp checked
  rcases fails_bind.mp failed with failed | ⟨_, _, counted, failed⟩
  · exact absurd failed not_fails_modify
  obtain rfl := returns_modify.mp counted
  rcases fails_bind.mp failed with failed | ⟨_, _, tested, failed⟩
  · exact absurd failed not_fails_blockInuse
  obtain ⟨_, _, _, rfl⟩ := blockInuse_returns tested
  rcases fails_bind.mp failed with failed | ⟨_, _, checked, failed⟩
  · exact absurd failed not_fails_assert
  obtain ⟨_, rfl⟩ := returns_assert.mp checked
  rcases fails_bind.mp failed with failed | ⟨_, _, _, failed⟩
  · rcases fails_bind.mp failed with failed | ⟨_, _, _, failed⟩
    · obtain ⟨_, faults, rfl⟩ := wblockNolock_fails (by exact mounted.congr rfl rfl) failed
      exact spared.change (spared.free_before free) (fun _ _ => rfl)
        fun d other => Function.update_of_ne other ..
    · exact absurd failed not_fails_pure
  · exact absurd failed not_fails_pure

theorem allocEntry_spared {offset : Nat} (mounted : Mounted sfs) (spared : Spared origin sfs)
    (free_ent : ent ≠ entp → origin.freemap ent = true)
    (failed : Fails (allocEntry entp ent offset) sfs ret after) : Spared origin after := by
  -- the cleanup frees a block that was free before
  have cleanup : ∀ {m : SfsFs} {code}, Spared origin m →
      Fails (cleanupEntry entp ent code) m ret after → Spared origin after := by
    intro m code spared failed
    rcases cleanupEntry_fails failed with ⟨_, rfl⟩ | ⟨new, dirty, rfl⟩
    · exact spared
    · exact spared.change (free_ent new) (fun _ _ => rfl) fun d other => Function.update_of_ne other ..
  rcases fails_bind.mp failed with failed | ⟨outcome, _, tried, rest⟩
  · exact absurd failed not_fails_attempt
  cases outcome with
  | error code => exact cleanup (blockAlloc_spared mounted spared (returns_attempt_error.mp tried)) rest
  | ok ino =>
    obtain ⟨free, _, _, faults, rfl⟩ := blockAlloc_returns (returns_attempt_ok.mp tried) mounted
    have taken := spared.free_before free
    rcases fails_bind.mp rest with failed | ⟨outcome, _, tried, ending⟩
    · exact absurd failed not_fails_attempt
    cases outcome with
    | ok stored => exact absurd ending not_fails_pure
    | error code =>
      obtain ⟨faults, rfl⟩ := wbuf_fails (by exact mounted.congr rfl rfl) (returns_attempt_error.mp tried)
      rcases fails_bind.mp ending with failed | ⟨_, _, freed, ending⟩
      · exact absurd failed not_fails_blockFree
      obtain ⟨_, rfl⟩ := blockFree_returns freed
      refine cleanup ?_ ending
      refine spared.change taken (fun d other => Function.update_of_ne other ..) fun d other => ?_
      exact (Function.update_of_ne other ..).trans (Function.update_of_ne other ..)

theorem bmapGetSub_spared {create : Bool} (mounted : Mounted sfs)
    (failed : Fails (bmapGetSub entp index create) sfs ret after) : Spared sfs after := by
  rcases fails_bind.mp failed with failed | ⟨_, _, checked, failed⟩
  · exact absurd failed not_fails_assert
  obtain ⟨_, rfl⟩ := returns_assert.mp checked
  split at failed
  · rcases fails_bind.mp failed with failed | ⟨_, _, loaded, rest⟩
    · obtain ⟨_, faults, rfl⟩ := rbuf_fails mounted failed
      exact Spared.refl.faults
    · obtain ⟨rfl, faults, rfl⟩ := rbuf_returns loaded mounted
      split at rest
      · exact absurd rest not_fails_pure
      · exact allocEntry_spared (by exact mounted.congr rfl rfl) Spared.refl.faults
          (fun other => absurd rfl other) rest
  · split at failed
    · exact absurd failed not_fails_pure
    · rcases fails_bind.mp failed with failed | ⟨ent, _, alloc, rest⟩
      · exact blockAlloc_spared mounted .refl failed
      · obtain ⟨free, _, _, faults, rfl⟩ := blockAlloc_returns alloc mounted
        refine allocEntry_spared (by exact mounted.congr rfl rfl) ?_ (fun _ => free) rest
        exact Spared.refl.change free (fun d other => Function.update_of_ne other ..)
          fun d other => Function.update_of_ne other ..

end

theorem bmapGet_spared {create : Bool} (mounted : Mounted node.fs)
    (failed : Fails (bmapGet index create) node ret after) :
    ∃ fs, Spared node.fs fs ∧ after = { node with fs := fs } := by
  unfold bmapGet at failed
  rcases fails_bind.mp failed with failed | ⟨_, _, got, failed⟩
  · exact absurd failed not_fails_gets
  obtain ⟨rfl, rfl⟩ := returns_gets.mp got
  split at failed
  · split at failed
    · rcases fails_bind.mp failed with failed | ⟨_, _, _, failed⟩
      · obtain ⟨fs, alloc, rfl⟩ := fails_within.mp failed
        exact ⟨fs, blockAlloc_spared mounted .refl alloc, rfl⟩
      · rcases fails_bind.mp failed with failed | ⟨_, _, _, failed⟩
        · exact absurd failed not_fails_modify
        rcases fails_bind.mp failed with failed | ⟨_, _, _, failed⟩
        · exact absurd failed not_fails_onlyIf_checkedInuse
        · exact absurd failed not_fails_pure
    · rcases fails_bind.mp failed with failed | ⟨_, _, _, failed⟩
      · exact absurd failed not_fails_onlyIf_checkedInuse
      · exact absurd failed not_fails_pure
  · split at failed
    · rcases fails_bind.mp failed with failed | ⟨_, _, _, failed⟩
      · obtain ⟨fs, sub, rfl⟩ := fails_within.mp failed
        exact ⟨fs, bmapGetSub_spared mounted sub, rfl⟩
      · rcases fails_bind.mp failed with failed | ⟨_, _, _, failed⟩
        · rcases fails_bind.mp (fails_onlyIf.mp failed).2 with failed | ⟨_, _, _, failed⟩
          · exact absurd failed not_fails_assert
          · exact absurd failed not_fails_modify
        rcases fails_bind.mp failed with failed | ⟨_, _, _, failed⟩
        · exact absurd failed not_fails_onlyIf_checkedInuse
        · exact absurd failed not_fails_pure
    · exact absurd failed not_fails_stop

theorem bmapLoad_spared (mounted : Mounted node.fs) (failed : Fails (bmapLoad index) node ret after) :
    ∃ fs, Spared node.fs fs ∧ after = { node with fs := fs } := by
  unfold bmapLoad at failed
  rcases fails_bind.mp failed with failed | ⟨_, _, got, failed⟩
  · exact absurd failed not_fails_gets
  obtain ⟨rfl, rfl⟩ := returns_gets.mp got
  rcases fails_bind.mp failed with failed | ⟨_, _, checked, failed⟩
  · exact absurd failed not_fails_assert
  obtain ⟨_, rfl⟩ := returns_assert.mp checked
  rcases fails_bind.mp failed with failed | ⟨_, _, _, failed⟩
  · exact bmapGet_spared mounted failed
  rcases fails_bind.mp failed with failed | ⟨_, _, _, failed⟩
  · exact absurd failed not_fails_checkedInuse
  rcases fails_bind.mp failed with failed | ⟨_, _, _, failed⟩
  · exact absurd (fails_onlyIf.mp failed).2 not_fails_modify
  · exact absurd failed not_fails_pure

/-! ## Bytes -/

/-- The byte of a file at a position, zero where no block is mapped. -/
def contentAt (node : Node) (p : Nat) : UInt8 :=
  if p / blksize < node.din.blocks then byteAt node p else 0

theorem contentAt_congr (blocks : after.din.blocks = node.din.blocks)
    (map : ∀ i < node.din.blocks, fileBlock after i = fileBlock node i)
    (disk : ∀ i < node.din.blocks, after.fs.disk (fileBlock node i) = node.fs.disk (fileBlock node i))
    (p : Nat) : contentAt after p = contentAt node p := by
  unfold contentAt byteAt
  rw [blocks]
  by_cases inside : p / blksize < node.din.blocks
  · rw [if_pos inside, if_pos inside, map _ inside, disk _ inside]
  · rw [if_neg inside, if_neg inside]

/-- A change of what was free leaves the file alone. -/
theorem Spared.file {fs : SfsFs} (spared : Spared node.fs fs) (sound : Sound node) :
    Sound { node with fs := fs } ∧ (∀ i, fileBlock { node with fs := fs } i = fileBlock node i) ∧
      ∀ p, contentAt { node with fs := fs } p = contentAt node p := by
  have map : ∀ i, fileBlock { node with fs := fs } i = fileBlock node i :=
    fileBlock_congr rfl fun present => (spared.used _ (sound.indirect present).1.2.2).2
  have used : ∀ {d}, InUse node.fs d → InUse fs d := fun {d} held => by
    rw [InUse, spared.super.1]
    exact ⟨held.1, held.2.1, (spared.used d held.2.2).1⟩
  refine ⟨⟨sound.mounted.congr spared.super.1 spared.super.2, sound.plain, sound.room, ?_, ?_, ?_, ?_⟩,
    map, ?_⟩
  · intro i below
    rw [map]
    exact used (sound.data i below)
  · intro i below j below' same
    rw [map, map] at same
    exact sound.apart i below j below' same
  · intro i above inside
    rw [map]
    exact sound.unmapped i above inside
  · intro present
    obtain ⟨held, apart⟩ := sound.indirect present
    refine ⟨used held, fun i below => ?_⟩
    rw [map]
    exact apart i below
  · exact contentAt_congr rfl (fun i _ => map i) fun i inside => (spared.used _ (sound.data i inside).2.2).2

/-- A new block is clear, as what is behind the last block. -/
theorem Grown.content (grown : Grown node ino after) (sound : Sound node) (p : Nat) :
    contentAt after p = contentAt node p := by
  unfold contentAt
  rw [grown.blocks]
  by_cases inside : p / blksize < node.din.blocks
  · rw [if_pos inside, if_pos (by omega), grown.bytes sound inside]
  · rw [if_neg inside]
    by_cases new : p / blksize = node.din.blocks
    · rw [if_pos (by omega), grown.zero new]
    · rw [if_neg (by omega)]

theorem Piece.content {write : Bool}
    (piece : Piece write pos (fileBlock node index) blkoff size node after) (sound : Sound node)
    (inside : index < node.din.blocks) (fits : blkoff + size ≤ blksize) (p : Nat) :
    contentAt after p =
      if write = true ∧ index * blksize + blkoff ≤ p ∧ p < index * blksize + blkoff + size
      then node.buf (pos + (p - (index * blksize + blkoff))) else contentAt node p := by
  cases write with
  | false =>
    rw [if_neg (by simp)]
    exact contentAt_congr (by rw [piece.din]) (fun i _ => piece.map sound inside i)
      (fun i _ => by rw [(piece.loaded rfl).1]) p
  | true =>
    have split := Nat.div_add_mod p blksize
    have small : p % blksize < blksize := Nat.mod_lt _ (by decide)
    unfold contentAt
    rw [piece.din]
    by_cases below : p / blksize < node.din.blocks
    · rw [if_pos below, if_pos below, piece.bytes sound inside below]
      by_cases now : index * blksize + blkoff ≤ p ∧ p < index * blksize + blkoff + size
      · have place : p / blksize = index := by
          refine Nat.div_eq_of_lt_le ?_ ?_
          · omega
          · rw [Nat.add_mul]
            omega
        rw [place, Nat.mul_comm] at split
        rw [if_pos ⟨now.1, now.2, place⟩, if_pos ⟨rfl, now⟩]
        congr 1
        omega
      · rw [if_neg (by omega), if_neg (by omega)]
    · have far : (index + 1) * blksize ≤ p := by
        have later : (index + 1) * blksize ≤ p / blksize * blksize :=
          Nat.mul_le_mul_right _ (by omega)
        rw [Nat.mul_comm] at split
        omega
      rw [Nat.add_mul] at far
      rw [if_neg below, if_neg below, if_neg (by omega)]

/-! ## A transfer in progress, with the bytes behind the last block -/

/-- The bytes whose transfer is done. -/
def transferred (node : Node) : Nat := (node.moved.map fun (_, _, _, size) => size).sum

/-- The first `pos` bytes of a transfer that began in `node` are done. -/
structure Flow (write : Bool) (node : Node) (offset pos : Nat) (m : Node) : Prop where
  sound : Sound m
  size : m.din.size = node.din.size
  blocks : node.din.blocks ≤ m.din.blocks
  map : ∀ i < node.din.blocks, fileBlock m i = fileBlock node i
  moved : transferred m = pos
  buffer : ∀ i, m.buf i = if write = false ∧ i < pos then contentAt node (offset + i) else node.buf i
  bytes : ∀ p, contentAt m p =
    if write = true ∧ offset ≤ p ∧ p < offset + pos then node.buf (p - offset) else contentAt node p

section
variable {write : Bool} {outcome : Except Int Unit}

theorem Flow.start (sound : Sound node) (quiet : node.moved = []) : Flow write node offset 0 node := by
  refine ⟨sound, rfl, Nat.le_refl _, fun _ _ => rfl, by rw [transferred, quiet]; rfl, ?_, ?_⟩
  · intro i
    rw [if_neg (by omega)]
  · intro p
    rw [if_neg (by omega)]

/-- The file is as it was. -/
theorem Flow.spared {fs : SfsFs} (flow : Flow write node offset pos m) (spared : Spared m.fs fs) :
    Flow write node offset pos { m with fs := fs } := by
  obtain ⟨sound, map, content⟩ := spared.file flow.sound
  refine ⟨sound, flow.size, flow.blocks, fun i below => ?_, flow.moved, flow.buffer, fun p => ?_⟩
  · rw [map, flow.map i below]
  · rw [content, flow.bytes]

theorem Flow.grown (flow : Flow write node offset pos m) (grown : Grown m ino after) :
    Flow write node offset pos after := by
  have blocks := grown.blocks
  have more := flow.blocks
  refine ⟨grown.sound flow.sound, grown.size.1.trans flow.size, by omega, fun i below => ?_, ?_, ?_,
    fun p => ?_⟩
  · rw [grown.map_old (by omega), flow.map i below]
  · rw [transferred, grown.buffer.2]
    exact flow.moved
  · rw [grown.buffer.1]
    exact flow.buffer
  · rw [grown.content flow.sound, flow.bytes]

theorem Flow.load (flow : Flow write node offset pos m) (ran : Returns (bmapLoad index) m ino after) :
    Flow write node offset pos after ∧ ino = fileBlock after index ∧ index < after.din.blocks := by
  rcases bmapLoad_returns flow.sound ran with ⟨inside, rfl, faults, rfl⟩ | ⟨rfl, grown⟩
  · exact ⟨flow.spared Spared.refl.faults, rfl, inside⟩
  · exact ⟨flow.grown grown, grown.map_new.symm, by rw [grown.blocks]; omega⟩

/-- One more piece, where the file has it. -/
theorem Flow.piece (flow : Flow write node offset pos m)
    (piece : Piece write pos (fileBlock m index) blkoff size m after) (inside : index < m.din.blocks)
    (place : offset + pos = index * blksize + blkoff) (fits : blkoff + size ≤ blksize) :
    Flow write node offset (pos + size) after := by
  have content := piece.content flow.sound inside fits
  refine ⟨piece.sound flow.sound inside, ?_, ?_, fun i below => ?_, ?_, fun i => ?_, fun p => ?_⟩
  · rw [piece.din, flow.size]
  · rw [piece.din]
    exact flow.blocks
  · rw [piece.map flow.sound inside, flow.map i below]
  · have moved := flow.moved
    unfold transferred at moved ⊢
    rw [piece.moved, List.map_append, List.sum_append, moved]
    simp
  · cases write with
    | true =>
      rw [(piece.wrote rfl).1, flow.buffer, if_neg (by simp), if_neg (by simp)]
    | false =>
      rw [(piece.loaded rfl).2]
      by_cases now : pos ≤ i ∧ i < pos + size
      · have eq : offset + i = blkoff + (i - pos) + index * blksize := by omega
        have spot : (offset + i) / blksize = index ∧ (offset + i) % blksize = blkoff + (i - pos) := by
          rw [eq, Nat.add_mul_div_right _ _ (by decide), Nat.add_mul_mod_self_right]
          exact ⟨by rw [Nat.div_eq_of_lt (by omega)]; omega, Nat.mod_eq_of_lt (by omega)⟩
        have byte := flow.bytes (offset + i)
        rw [if_neg (by simp), contentAt, spot.1, if_pos inside, byteAt, spot.1, spot.2] at byte
        rw [if_pos now, if_pos ⟨rfl, now.2⟩]
        exact byte
      · rw [if_neg now, flow.buffer]
        by_cases before : i < pos
        · rw [if_pos ⟨rfl, before⟩, if_pos ⟨rfl, by omega⟩]
        · rw [if_neg (by omega), if_neg (by omega)]
  · rw [content, flow.bytes, ← place]
    cases write with
    | false => rw [if_neg (by simp), if_neg (by simp), if_neg (by simp)]
    | true =>
      by_cases now : offset + pos ≤ p ∧ p < offset + pos + size
      · rw [if_pos ⟨rfl, now⟩, if_pos ⟨rfl, by omega⟩, flow.buffer, if_neg (by simp)]
        congr 1
        omega
      · rw [if_neg (by omega)]
        by_cases before : offset ≤ p ∧ p < offset + pos
        · rw [if_pos ⟨rfl, before⟩, if_pos ⟨rfl, by omega⟩]
        · rw [if_neg (by omega), if_neg (by omega)]

theorem bufOp_fails (mounted : Mounted m.fs) (failed : Fails (bufOp write pos size ino blkoff) m ret after) :
    ∃ faults, after = { m with fs := { m.fs with faults := faults } } := by
  cases write with
  | true =>
    rcases fails_bind.mp failed with failed | ⟨_, _, got, rest⟩
    · exact absurd failed not_fails_gets
    obtain ⟨rfl, rfl⟩ := returns_gets.mp got
    rcases fails_bind.mp rest with failed | ⟨_, _, _, failed⟩
    · obtain ⟨fs, inner, rfl⟩ := fails_within.mp failed
      obtain ⟨faults, rfl⟩ := wbuf_fails mounted inner
      exact ⟨faults, rfl⟩
    · exact absurd failed not_fails_modify
  | false =>
    rcases fails_bind.mp failed with failed | ⟨_, _, _, rest⟩
    · obtain ⟨fs, inner, rfl⟩ := fails_within.mp failed
      obtain ⟨_, faults, rfl⟩ := rbuf_fails mounted inner
      exact ⟨faults, rfl⟩
    · rcases fails_bind.mp rest with failed | ⟨_, _, _, failed⟩
      · exact absurd failed not_fails_modify
      · exact absurd failed not_fails_modify

theorem blockTransfer_fails (mounted : Mounted m.fs)
    (failed : Fails (blockTransfer write pos ino) m ret after) :
    ∃ faults, after = { m with fs := { m.fs with faults := faults } } := by
  cases write with
  | true =>
    rcases fails_bind.mp failed with failed | ⟨_, _, got, rest⟩
    · exact absurd failed not_fails_gets
    obtain ⟨rfl, rfl⟩ := returns_gets.mp got
    rcases fails_bind.mp rest with failed | ⟨_, _, _, failed⟩
    · obtain ⟨fs, inner, rfl⟩ := fails_within.mp failed
      obtain ⟨_, faults, rfl⟩ := wblockNolock_fails mounted inner
      exact ⟨faults, rfl⟩
    · exact absurd failed not_fails_modify
  | false =>
    rcases fails_bind.mp failed with failed | ⟨_, _, _, rest⟩
    · obtain ⟨fs, inner, rfl⟩ := fails_within.mp failed
      obtain ⟨_, faults, rfl⟩ := rwblockNolock_fails mounted inner
      exact ⟨faults, rfl⟩
    · rcases fails_bind.mp rest with failed | ⟨_, _, _, failed⟩
      · exact absurd failed not_fails_modify
      · exact absurd failed not_fails_modify

/-- Whole blocks, as many as the device takes, where the file has them one after another. -/
theorem Flow.blockOp {nblks : Nat} (flow : Flow write node offset pos m)
    (ran : Returns (attempt (blockOp write pos ino nblks)) m outcome after)
    (consecutive : ∀ j < nblks, index + j < m.din.blocks ∧ fileBlock m (index + j) = ino + j)
    (place : offset + pos = index * blksize) :
    ∃ done ≤ nblks, Flow write node offset (pos + done * blksize) after ∧
      (outcome = .ok () → done = nblks) := by
  induction nblks generalizing m pos ino index with
  | zero =>
    refine ⟨0, Nat.le_refl 0, ?_, fun _ => rfl⟩
    cases outcome with
    | ok done =>
      obtain ⟨_, rfl⟩ := returns_pure.mp (returns_attempt_ok.mp ran)
      rwa [Nat.zero_mul]
    | error ret => exact absurd (returns_attempt_error.mp ran) not_fails_pure
  | succ nblks ih =>
    obtain ⟨inside, same⟩ := consecutive 0 (by omega)
    rw [Nat.add_zero] at inside same
    have further : ∀ {result between}, Returns (blockTransfer write pos ino) m result between →
        Returns (attempt (Sfs.blockOp write (pos + blksize) (ino + 1) nblks)) between outcome after →
        ∃ done ≤ nblks + 1, Flow write node offset (pos + done * blksize) after ∧
          (outcome = .ok () → done = nblks + 1) := by
      intro result between moved rest
      have piece := blockTransfer_piece moved flow.sound.mounted
      rw [Nat.add_zero] at same
      rw [← same] at piece
      have map := piece.map flow.sound inside
      have later : ∀ j < nblks,
          index + 1 + j < between.din.blocks ∧ fileBlock between (index + 1 + j) = ino + 1 + j := by
        intro j below
        have later := consecutive (j + 1) (by omega)
        rw [map, piece.din, show index + 1 + j = index + (j + 1) by omega,
          show ino + 1 + j = ino + (j + 1) by omega]
        exact later
      have moved := flow.piece piece inside (place.trans (Nat.add_zero _).symm) (by omega)
      obtain ⟨done, le, flow, all⟩ := ih moved rest later (by rw [Nat.add_mul]; omega)
      refine ⟨done + 1, by omega, ?_, fun ok => by rw [all ok]⟩
      rwa [show pos + (done + 1) * blksize = pos + blksize + done * blksize by rw [Nat.add_mul]; omega]
    cases outcome with
    | ok done =>
      obtain ⟨_, _, moved, rest⟩ := returns_bind.mp (returns_attempt_ok.mp ran)
      exact further moved (returns_attempt_ok.mpr rest)
    | error ret =>
      rcases fails_bind.mp (returns_attempt_error.mp ran) with failed | ⟨_, _, moved, failed⟩
      · obtain ⟨faults, rfl⟩ := blockTransfer_fails flow.sound.mounted failed
        refine ⟨0, Nat.zero_le _, ?_, fun never => by cases never⟩
        rw [Nat.zero_mul]
        exact flow.spared Spared.refl.faults
      · exact further moved (returns_attempt_error.mpr failed)

/-- A block is mapped and something is done with it, or the mapping fails. -/
theorem Flow.loaded {op : Nat → Call Node Unit} (flow : Flow write node offset pos m)
    (ran : Returns (attempt (bmapLoad index >>= op)) m outcome after) :
    ((∃ ret, outcome = .error ret) ∧ Flow write node offset pos after) ∨
      ∃ between, Flow write node offset pos between ∧ index < between.din.blocks ∧
        Returns (attempt (op (fileBlock between index))) between outcome after := by
  cases outcome with
  | ok done =>
    obtain ⟨ino, between, load, moved⟩ := returns_bind.mp (returns_attempt_ok.mp ran)
    obtain ⟨flow, rfl, inside⟩ := flow.load load
    exact .inr ⟨between, flow, inside, returns_attempt_ok.mpr moved⟩
  | error ret =>
    rcases fails_bind.mp (returns_attempt_error.mp ran) with failed | ⟨ino, between, load, failed⟩
    · obtain ⟨fs, spared, rfl⟩ := bmapLoad_spared flow.sound.mounted failed
      exact .inl ⟨⟨ret, rfl⟩, flow.spared spared⟩
    · obtain ⟨flow, rfl, inside⟩ := flow.load load
      exact .inr ⟨between, flow, inside, returns_attempt_error.mpr failed⟩

theorem Flow.buf (flow : Flow write node offset pos m)
    (ran : Returns (attempt (bmapLoad index >>= fun ino => bufOp write pos size ino blkoff)) m
      outcome after)
    (place : offset + pos = index * blksize + blkoff) (fits : blkoff + size ≤ blksize) :
    (outcome = .ok () ∧ Flow write node offset (pos + size) after) ∨
      ((∃ ret, outcome = .error ret) ∧ Flow write node offset pos after) := by
  rcases flow.loaded ran with failed | ⟨between, flow, inside, tried⟩
  · exact .inr failed
  · cases outcome with
    | ok done =>
      have piece := bufOp_piece (returns_attempt_ok.mp tried) flow.sound.mounted
      exact .inl ⟨rfl, flow.piece piece inside place fits⟩
    | error ret =>
      obtain ⟨faults, rfl⟩ := bufOp_fails flow.sound.mounted (returns_attempt_error.mp tried)
      exact .inr ⟨⟨ret, rfl⟩, flow.spared Spared.refl.faults⟩

theorem Flow.run {nblks : Nat} (flow : Flow write node offset pos m)
    (ran : Returns (attempt (bmapLoad index >>= fun ino => Sfs.blockOp write pos ino nblks)) m
      outcome after)
    (follow : Follow node index nblks) (place : offset + pos = index * blksize) :
    ∃ done ≤ nblks, Flow write node offset (pos + done * blksize) after ∧
      (outcome = .ok () → done = nblks) := by
  rcases flow.loaded ran with ⟨⟨ret, rfl⟩, flow⟩ | ⟨between, flow, inside, tried⟩
  · refine ⟨0, Nat.zero_le _, ?_, fun never => by cases never⟩
    rwa [Nat.zero_mul]
  · refine flow.blockOp tried (fun j below => ?_) place
    by_cases first : j = 0
    · rw [first]
      exact ⟨inside, rfl⟩
    · obtain ⟨exists_block, next⟩ := follow j (by omega) below
      have more := flow.blocks
      rw [flow.map _ exists_block, flow.map index (by omega), next]
      exact ⟨by omega, rfl⟩

/-- The end of a transfer: its first `done` bytes were moved, `alen` of them counted. -/
def Ended (write : Bool) (node : Node) (offset total alen : Nat) (outcome : Except Int Unit)
    (after : Node) : Prop :=
  ∃ done m dirty, Flow write node offset done m ∧ alen ≤ done ∧ done ≤ total ∧
    (outcome = .ok () → alen = total) ∧
    after = { m with din := { m.din with size := max m.din.size (offset + alen) }, dirty := dirty }

variable {outcome' : Except Int Unit} {done total endpos blkno : Nat}

theorem Flow.finish (flow : Flow write node offset done m)
    (ran : Returns (finish offset pos outcome) m (alen, outcome') after) (counted : pos ≤ done)
    (inside : done ≤ total) (whole : outcome = .ok () → pos = total) :
    Ended write node offset total alen outcome' after := by
  obtain ⟨same, dirty, rfl⟩ := finish_returns ran
  obtain ⟨rfl, rfl⟩ := Prod.mk.inj same
  exact ⟨done, m, dirty, flow, counted, inside, whole, rfl⟩

theorem Flow.tail (flow : Flow write node offset pos m)
    (ran : Returns (ioTail write offset endpos pos blkno) m (alen, outcome) after)
    (place : offset + pos = blkno * blksize) (last : endpos / blksize = blkno) :
    Ended write node offset (endpos - offset) alen outcome after := by
  have split := Nat.div_add_mod endpos blksize
  rw [last, Nat.mul_comm] at split
  unfold ioTail at ran
  by_cases whole : endpos % blksize = 0
  · rw [if_neg (by simpa using whole)] at ran
    exact flow.finish ran (Nat.le_refl _) (by omega) fun _ => by omega
  · rw [if_pos (by simpa using whole)] at ran
    obtain ⟨outcome, _, tried, rest⟩ := returns_bind.mp ran
    have small : endpos % blksize < blksize := Nat.mod_lt _ (by decide)
    rcases flow.buf tried (place.trans (Nat.add_zero _).symm) (by omega) with ⟨rfl, flow⟩ | ⟨⟨ret, rfl⟩, flow⟩
    · exact flow.finish rest (Nat.le_refl _) (by omega) fun _ => by omega
    · exact flow.finish rest (Nat.le_refl _) (by omega) fun never => by cases never

theorem Flow.blocks_part {nblks : Nat} (flow : Flow write node offset pos m)
    (ran : Returns (ioBlocks write offset endpos pos blkno nblks) m (alen, outcome) after)
    (follow : Follow node blkno nblks) (place : offset + pos = blkno * blksize)
    (last : endpos / blksize = blkno + nblks) :
    Ended write node offset (endpos - offset) alen outcome after := by
  have split := Nat.div_add_mod endpos blksize
  rw [last, Nat.mul_comm, Nat.add_mul] at split
  unfold ioBlocks at ran
  by_cases some_blocks : 0 < nblks
  · rw [if_pos some_blocks] at ran
    obtain ⟨outcome, _, tried, rest⟩ := returns_bind.mp ran
    obtain ⟨done, le, flow, all⟩ := flow.run tried follow place
    cases outcome with
    | error ret =>
      have most : done * blksize ≤ nblks * blksize := Nat.mul_le_mul_right _ le
      exact flow.finish rest (by omega) (by omega) fun never => by cases never
    | ok result =>
      rw [all rfl] at flow
      exact flow.tail rest (by rw [Nat.add_mul]; omega) last
  · rw [if_neg some_blocks] at ran
    exact flow.tail ran place (by omega)

theorem Flow.head (flow : Flow write node offset 0 node)
    (ran : Returns (ioHead write offset endpos) node (alen, outcome) after) (some_bytes : offset < endpos)
    (follow : Follow node ((offset + (blksize - 1)) / blksize)
      (endpos / blksize - (offset + (blksize - 1)) / blksize)) :
    Ended write node offset (endpos - offset) alen outcome after := by
  have split := Nat.div_add_mod offset blksize
  have split_end := Nat.div_add_mod endpos blksize
  have ordered : offset / blksize ≤ endpos / blksize := Nat.div_le_div_right (by omega)
  rw [Nat.mul_comm] at split split_end
  unfold ioHead at ran
  by_cases aligned : offset % blksize = 0
  · rw [if_neg (by simpa using aligned)] at ran
    have first : (offset + (blksize - 1)) / blksize = offset / blksize := by
      simp only [blksize] at *
      omega
    rw [first] at follow
    exact flow.blocks_part ran follow (by omega) (by omega)
  · rw [if_pos (by simpa using aligned)] at ran
    have first : (offset + (blksize - 1)) / blksize = offset / blksize + 1 := by
      simp only [blksize] at *
      omega
    rw [first] at follow
    obtain ⟨outcome, _, tried, rest⟩ := returns_bind.mp ran
    have small : offset % blksize < blksize := Nat.mod_lt _ (by decide)
    have small_end : endpos % blksize < blksize := Nat.mod_lt _ (by decide)
    by_cases within : endpos / blksize - offset / blksize = 0
    · have same : endpos / blksize = offset / blksize := by omega
      rw [same] at split_end
      rw [if_neg (by simpa using within)] at tried
      rcases flow.buf tried (by omega) (by omega) with ⟨rfl, flow⟩ | ⟨⟨ret, rfl⟩, flow⟩
      · rw [if_pos within, if_neg (by simpa using within)] at rest
        exact flow.finish rest (by omega) (by omega) fun _ => rfl
      · exact flow.finish rest (Nat.le_refl _) (Nat.zero_le _) fun never => by cases never
    · rw [if_pos (by simpa using within)] at tried
      rcases flow.buf tried (by omega) (by omega) with ⟨rfl, flow⟩ | ⟨⟨ret, rfl⟩, flow⟩
      · rw [if_neg within, if_pos (by simpa using within)] at rest
        rw [Nat.zero_add] at flow
        refine flow.blocks_part rest (by rwa [Nat.sub_sub]) ?_ (by omega)
        rw [Nat.add_mul]
        omega
      · exact flow.finish rest (Nat.le_refl _) (Nat.zero_le _) fun never => by cases never

end

/-! ## Changes of the size -/

/-- The size and the bytes are the same. -/
structure Unchanged (node after : Node) : Prop where
  sound : Sound after
  size : after.din.size = node.din.size
  content : ∀ p, contentAt after p = contentAt node p

theorem Unchanged.refl (sound : Sound node) : Unchanged node node := ⟨sound, rfl, fun _ => rfl⟩

theorem Unmapped.unchanged (unmapped : Unmapped node after) (sound : Sound node) : Unchanged node after := by
  have map := unmapped.map sound
  have same := unmapped.fs.disk
  have sound_after := unmapped.sound sound
  obtain ⟨kept, fs, rfl⟩ := unmapped
  exact ⟨sound_after, rfl,
    contentAt_congr rfl (fun i _ => map i) fun i inside => same _ (sound.data i inside).2.2⟩

/-- Blocks that were added before the next one failed are clear. -/
theorem enlarge_unchanged {more : Nat} (sound : Sound node)
    (failed : Fails (enlarge node.din.blocks more) node ret after) : Unchanged node after := by
  induction more generalizing node with
  | zero => exact absurd failed not_fails_pure
  | succ more ih =>
    rcases fails_bind.mp failed with first | ⟨ino, m, loaded, rest⟩
    · obtain ⟨fs, spared, rfl⟩ := bmapLoad_spared sound.mounted first
      obtain ⟨sound, _, content⟩ := spared.file sound
      exact ⟨sound, rfl, content⟩
    · rcases bmapLoad_returns sound loaded with ⟨below, _⟩ | ⟨_, grown⟩
      · exact absurd below (Nat.lt_irrefl _)
      rw [← grown.blocks] at rest
      have later := ih (grown.sound sound) rest
      exact ⟨later.sound, later.size.trans grown.size.1,
        fun p => (later.content p).trans (grown.content sound p)⟩

theorem Resized.content {tblks p : Nat} (resized : Resized node tblks after) (inside : p / blksize < tblks) :
    contentAt after p = contentAt node p := by
  unfold contentAt
  rw [resized.blocks, if_pos inside]
  by_cases old : p / blksize < node.din.blocks
  · rw [if_pos old, resized.kept p old inside]
  · rw [if_neg old, resized.zero p (by omega) inside]

/-- The bytes behind the end of the file are clear up to a position. -/
def ClearTo (node : Node) (last : Int) : Prop :=
  ∀ p : Nat, node.din.size ≤ p → p < last → contentAt node p = 0

/-- A new size that shows no byte that was cut off and, when it is refused, has not cut. -/
def CutSafe (node : Node) (len : Int) : Prop :=
  0 ≤ len → len ≤ maxFileSize → len ≠ node.din.size → ClearTo node len ∧
    (blocksFor len.toNat ≤ node.din.blocks → ReduceSafe node (node.din.blocks - blocksFor len.toNat))

theorem truncfile_unchanged {len : Int} (sound : Sound node) (safe : CutSafe node len)
    (failed : Fails (truncfile len) node ret after) : Unchanged node after := by
  rcases truncfile_fails_resize failed with rfl | ⟨positive, limit, other, resizing⟩
  · exact .refl sound
  rcases resize_fails resizing with ⟨_, failed⟩ | ⟨shorter, failed⟩
  · exact enlarge_unchanged sound failed
  · exact (reduce_fails sound ((safe positive limit other).2 shorter) failed).unchanged sound

theorem truncfile_limit {len : Int} {result : Unit} (ran : Returns (truncfile len) node result after) :
    len ≤ maxFileSize := by
  unfold truncfile at ran
  obtain ⟨_, _, got, ran⟩ := returns_bind.mp ran
  obtain ⟨rfl, rfl⟩ := returns_gets.mp got
  split at ran
  · exact absurd ran (not_returns_fail _)
  rename_i valid
  simp only [Bool.or_eq_true, decide_eq_true_eq, not_or, Int.not_lt] at valid
  exact valid.2

/-- A new size: what is below both sizes is kept, what is new reads zero. -/
theorem truncfile_content {len : Int} {result : Unit} (sound : Sound node) (safe : CutSafe node len)
    (ran : Returns (truncfile len) node result after) : Sound after ∧ (after.din.size : Int) = len ∧
      ∀ p < after.din.size, contentAt after p = if p < node.din.size then contentAt node p else 0 := by
  have limit := truncfile_limit ran
  obtain ⟨positive, ⟨same, rfl⟩ | ⟨m, resized, rfl⟩⟩ := truncfile_returns sound ran
  · exact ⟨sound, same, fun p inside => (if_pos inside).symm⟩
  refine ⟨resized.sound.congr rfl rfl rfl ⟨rfl, rfl⟩ rfl fun _ => rfl, Int.toNat_of_nonneg positive,
    fun p inside => ?_⟩
  change p < len.toNat at inside
  have reached : p / blksize < blocksFor len.toNat := by
    simp only [blocksFor, blksize]
    omega
  refine (resized.content reached).trans ?_
  by_cases old : p < node.din.size
  · rw [if_pos old]
  · rw [if_neg old]
    exact (safe positive limit (by omega)).1 p (by omega) (by omega)

/-! ## The law -/

/-- A file, and what its calls have made of its bytes. -/
structure History where
  node : Node
  bytes : Nat → UInt8

/-- The byte that a call has written at a position. -/
def written (request : Request) (after : Node) (p : Nat) : Option UInt8 :=
  match request with
  | .write offset data _ =>
    if offset.toNat ≤ p ∧ p < offset.toNat + transferred after then some (data (p - offset.toNat)) else none
  | _ => none

/-- The last byte written to a position since it last became part of the file, or zero. -/
def History.next (history : History) (event : Event) (after : Node) (p : Nat) : UInt8 :=
  if p < after.din.size then
    (written event.request after p).getD (if p < history.node.din.size then history.bytes p else 0)
  else 0

def History.step (history : History) (event : Event) : Option History :=
  (handle event history.node).map fun (_, after) => ⟨after, history.next event after⟩

/-- What a call shows of the bytes, and what it makes of the size. -/
def Shows (history : History) (alen : Nat) (outcome : Except Int Unit) (after : Node) : Request → Prop
  | .read offset len =>
    (∀ i < alen, offset.toNat + i < history.node.din.size ∧
      after.buf i = history.bytes (offset.toNat + i)) ∧
    (outcome = .ok () → (alen : Int) = max 0 (min (reach offset len) history.node.din.size - offset)) ∧
    after.din.size = history.node.din.size
  | .write offset _ len => alen ≤ transferred after ∧
    (outcome = .ok () → (alen : Int) = max 0 (reach offset len - offset)) ∧
    (0 < alen → after.din.size = max history.node.din.size (offset.toNat + alen))
  | .truncate len => outcome = .ok () → (after.din.size : Int) = len
  | .seek pos => outcome = .ok () → (after.din.size : Int) = max (history.node.din.size : Int) pos

def Recalls (history : History) (event : Event) : Prop :=
  ∀ alen outcome after, Returns (handle event) history.node (alen, outcome) after →
    Shows history alen outcome after event.request

/-- Whole blocks in a range follow one another on the disk. -/
def Consecutive (node : Node) (offset endpos : Nat) : Prop :=
  Follow node ((offset + (blksize - 1)) / blksize) (endpos / blksize - (offset + (blksize - 1)) / blksize)

def ContentSafe (node : Node) : Request → Prop
  | .read offset len => 0 ≤ offset → Consecutive node offset.toNat (min (reach offset len) node.din.size).toNat
  | .write offset _ len => 0 ≤ offset → offset < reach offset len →
    Consecutive node offset.toNat (reach offset len).toNat ∧ ClearTo node offset
  | .truncate len => CutSafe node len
  | .seek pos => (node.din.size : Int) < pos → pos < maxFileSize → CutSafe node pos

/-- The calls of a run that keep the bytes. -/
def Recallable (history : History) (event : Event) : Prop :=
  ContentSafe (enter event history.node) event.request

def Tracks (history : History) : Prop :=
  Sound history.node ∧ ∀ p < history.node.din.size, contentAt history.node p = history.bytes p

theorem Tracks.next {history : History} {event : Event} (tracks : Tracks history) (sound : Sound after)
    (content : ∀ p < after.din.size, contentAt after p = (written event.request after p).getD
      (if p < history.node.din.size then contentAt history.node p else 0)) :
    Tracks ⟨after, history.next event after⟩ := by
  refine ⟨sound, fun p inside => ?_⟩
  refine (content p inside).trans (Eq.trans ?_ (if_pos inside).symm)
  by_cases old : p < history.node.din.size
  · rw [if_pos old, if_pos old, tracks.2 p old]
  · rw [if_neg old, if_neg old]

section
variable {offset : Int} {len : Nat} {outcome : Except Int Unit} {data : Nat → UInt8}

theorem read_content (sound : Sound node) (quiet : node.moved = [])
    (safe : ContentSafe node (.read offset len))
    (ran : Returns (ioNolock false offset len) node (alen, outcome) after) : Unchanged node after ∧
      (∀ i < alen, offset.toNat + i < node.din.size ∧ after.buf i = contentAt node (offset.toNat + i)) ∧
      (outcome = .ok () → (alen : Int) = max 0 (min (reach offset len) node.din.size - offset)) := by
  rcases ioNolock_ends ran with ⟨rfl, rfl, nothing⟩ | ⟨valid, some_bytes, inside, io⟩
  · refine ⟨.refl sound, fun i never => absurd never (Nat.not_lt_zero i), fun ok => ?_⟩
    rcases nothing ok with nothing | ⟨_, nothing⟩ <;> omega
  have start : Flow false node offset.toNat 0 node := .start sound quiet
  obtain ⟨done, m, dirty, flow, counted, most, whole, rfl⟩ := start.head io (by omega) (safe valid)
  have size := flow.size
  have kept : max m.din.size (offset.toNat + alen) = node.din.size := by omega
  refine ⟨⟨flow.sound.congr rfl rfl rfl ⟨rfl, rfl⟩ rfl fun _ => rfl, kept, fun p => ?_⟩,
    fun i below => ⟨by omega, ?_⟩, fun ok => ?_⟩
  · refine (flow.bytes p).trans (if_neg (by simp))
  · exact (flow.buffer i).trans (if_pos ⟨rfl, by omega⟩)
  · have all := whole ok
    omega

theorem write_content (sound : Sound node) (quiet : node.moved = [])
    (safe : ContentSafe node (.write offset data len))
    (ran : Returns (ioNolock true offset len) node (alen, outcome) after) : Sound after ∧
      (∀ p < after.din.size, contentAt after p =
        if offset.toNat ≤ p ∧ p < offset.toNat + transferred after then node.buf (p - offset.toNat)
        else if p < node.din.size then contentAt node p else 0) ∧
      alen ≤ transferred after ∧
      (outcome = .ok () → (alen : Int) = max 0 (reach offset len - offset)) ∧
      (0 < alen → after.din.size = max node.din.size (offset.toNat + alen)) := by
  rcases ioNolock_ends ran with ⟨rfl, rfl, nothing⟩ | ⟨valid, some_bytes, io⟩
  · refine ⟨sound, fun p inside => ?_, Nat.zero_le _, fun ok => ?_, fun never => absurd never (by omega)⟩
    · have none_moved : transferred after = 0 := by
        rw [transferred, quiet]
        rfl
      rw [none_moved, if_neg (by omega), if_pos inside]
    · rcases nothing ok with nothing | ⟨never, _⟩
      · omega
      · cases never
  obtain ⟨consecutive, clear⟩ := safe valid some_bytes
  have start : Flow true node offset.toNat 0 node := .start sound quiet
  obtain ⟨done, m, dirty, flow, counted, most, whole, rfl⟩ := start.head io (by omega) consecutive
  have moved : transferred m = done := flow.moved
  have size := flow.size
  refine ⟨flow.sound.congr rfl rfl rfl ⟨rfl, rfl⟩ rfl fun _ => rfl, fun p inside => ?_, ?_, fun ok => ?_,
    fun _ => ?_⟩
  · change p < max m.din.size (offset.toNat + alen) at inside
    change contentAt m p = if offset.toNat ≤ p ∧ p < offset.toNat + transferred m then _ else _
    rw [flow.bytes p, moved]
    by_cases now : offset.toNat ≤ p ∧ p < offset.toNat + done
    · rw [if_pos ⟨rfl, now⟩, if_pos now]
    · rw [if_neg (fun both => now both.2), if_neg now]
      by_cases old : p < node.din.size
      · rw [if_pos old]
      · rw [if_neg old]
        exact clear p (by omega) (by omega)
  · exact counted.trans (Nat.le_of_eq moved.symm)
  · have all := whole ok
    omega
  · exact congrArg (max · _) size

theorem truncate_content {len : Int} (sound : Sound node) (safe : CutSafe node len)
    (ran : Returns (attempt (truncfile len)) node outcome after) : Sound after ∧
      (∀ p < after.din.size, contentAt after p = if p < node.din.size then contentAt node p else 0) ∧
      (outcome = .ok () → (after.din.size : Int) = len) := by
  cases outcome with
  | ok done =>
    obtain ⟨sound, size, content⟩ := truncfile_content sound safe (returns_attempt_ok.mp ran)
    exact ⟨sound, content, fun _ => size⟩
  | error ret =>
    obtain ⟨sound, size, content⟩ := truncfile_unchanged sound safe (returns_attempt_error.mp ran)
    refine ⟨sound, fun p inside => ?_, fun never => by cases never⟩
    rw [content, if_pos (size ▸ inside)]

end

theorem step_recalls {history : History} {event : Event} {outcome : Except Int Unit}
    (tracks : Tracks history) (safe : Recallable history event)
    (ran : Returns (handle event) history.node (alen, outcome) after) :
    Shows history alen outcome after event.request ∧ Tracks ⟨after, history.next event after⟩ := by
  obtain ⟨request, answers⟩ := event
  obtain ⟨node, bytes⟩ := history
  have entered : Sound (enter ⟨request, answers⟩ node) := enter_sound ⟨request, answers⟩ tracks.1
  -- the byte shown or kept at a position that was part of the file
  have known : ∀ p < node.din.size, contentAt (enter ⟨request, answers⟩ node) p = bytes p := tracks.2
  have ran := handle_returns ran
  cases request with
  | read offset len =>
    obtain ⟨unchanged, shown, length⟩ := read_content entered rfl safe ran
    refine ⟨⟨fun i below => ?_, length, unchanged.size⟩, tracks.next unchanged.sound fun p inside => ?_⟩
    · obtain ⟨inside, same⟩ := shown i below
      exact ⟨inside, same.trans (known _ inside)⟩
    · rw [unchanged.size] at inside
      exact (unchanged.content p).trans (if_pos inside).symm
  | write offset data len =>
    obtain ⟨sound, content, lengths⟩ := write_content entered rfl safe ran
    refine ⟨lengths, tracks.next sound fun p inside => (content p inside).trans ?_⟩
    by_cases now : offset.toNat ≤ p ∧ p < offset.toNat + transferred after
    · rw [if_pos now, written, if_pos now]
      rfl
    · rw [if_neg now, written, if_neg now]
      rfl
  | truncate len =>
    obtain ⟨_, _, tried, ending⟩ := returns_bind.mp ran
    obtain ⟨same, rfl⟩ := returns_pure.mp ending
    obtain ⟨-, rfl⟩ := Prod.mk.inj same
    obtain ⟨sound, content, size⟩ := truncate_content entered safe tried
    exact ⟨size, tracks.next sound content⟩
  | seek pos =>
    obtain ⟨_, _, tried, ending⟩ := returns_bind.mp ran
    obtain ⟨same, rfl⟩ := returns_pure.mp ending
    obtain ⟨-, rfl⟩ := Prod.mk.inj same
    rcases tryseek_cases tried with ⟨rfl, inside⟩ | ⟨beyond, valid, tried⟩
    · exact ⟨fun ok => (max_eq_left (inside ok)).symm,
        tracks.next entered fun p inside => (if_pos inside).symm⟩
    · obtain ⟨sound, content, size⟩ := truncate_content entered (safe beyond valid) tried
      exact ⟨fun ok => (size ok).trans (max_eq_right (Int.le_of_lt beyond)).symm, tracks.next sound content⟩

/-- In every run of permitted calls reads show the last byte written to each position
since it became part of the file, or zero. -/
theorem content_recalled {history : History} {events : List Event} (sound : Sound history.node)
    (known : ∀ p < history.node.din.size, contentAt history.node p = history.bytes p)
    (along : Along History.step Recallable history events) :
    Along History.step Recalls history events := by
  have keeps : ∀ history event, Tracks history → Recallable history event →
      Recalls history event ∧ ∀ later, history.step event = some later → Tracks later := by
    intro history event tracks safe
    refine ⟨fun alen outcome after ran => (step_recalls tracks safe ran).1, fun later stepped => ?_⟩
    obtain ⟨⟨outcome, after⟩, ran, rfl⟩ := Option.map_eq_some_iff.mp stepped
    cases outcome with
    | ok result => exact (step_recalls tracks safe ran).2
    | error ret => exact absurd ran not_fails_handle
  exact along_of_invariant keeps ⟨sound, known⟩ along

def twoBlocksKnown : History := ⟨twoBlocks 11, contentAt (twoBlocks 11)⟩

/-- A shrink inside a block, data near the start, a read. -/
def shrinkWriteRead : List Event :=
  [accepting (.truncate 5000), accepting (.write 3 (fun _ => 7) 5), accepting (.read 0 100)]

theorem shrinkWriteRead_recalled : Along History.step Recalls twoBlocksKnown shrinkWriteRead := by
  refine content_recalled (twoBlocks_sound (by decide) (by decide)) (fun _ _ => rfl) ⟨?_, ?_⟩
  · refine fun _ _ _ => ⟨fun p above below => ?_, fun _ => .inl (by decide)⟩
    change 8192 ≤ p at above
    omega
  · intro shrunk stepped
    have size : (History.step twoBlocksKnown (accepting (.truncate 5000))).map (fun h => h.node.din.size)
        = some 5000 := by decide +kernel
    rw [stepped] at size
    have size : shrunk.node.din.size = 5000 := Option.some.inj size
    refine ⟨fun _ _ => ⟨fun j positive below => ?_, fun p above below => ?_⟩, fun wrote _ => ⟨?_, fun _ _ => trivial⟩⟩
    · exact absurd below (by
        rw [show (reach 3 5).toNat / blksize = 0 by decide, Nat.zero_sub]
        exact Nat.not_lt_zero j)
    · change shrunk.node.din.size ≤ p at above
      omega
    · intro _ j positive below
      have near : (min (reach 0 100) wrote.node.din.size).toNat / blksize = 0 := by
        have close : reach 0 100 = 100 := by decide
        simp only [close, blksize]
        omega
      change j < (min (reach 0 100) wrote.node.din.size).toNat / blksize - _ at below
      rw [near, Nat.zero_sub] at below
      exact absurd below (Nat.not_lt_zero j)

/-- The second byte, cut off by a shrink to one byte, is there again after an extension. -/
theorem cut_byte_reappears : ¬ Along History.step Recalls twoBlocksKnown
    [accepting (.truncate 1), accepting (.truncate 2), accepting (.read 0 2)] := by
  intro along
  have ran : (run History.step twoBlocksKnown [accepting (.truncate 1), accepting (.truncate 2)]).bind
      (fun h => (handle (accepting (.read 0 2)) h.node).map fun (outcome, after) =>
        (outcome, after.buf 1, h.bytes 1)) = some (.ok (2, .ok ()), 10, 0) := by
    decide +kernel
  obtain ⟨extended, reached, shown⟩ := Option.bind_eq_some_iff.mp ran
  obtain ⟨⟨outcome, after⟩, read, same⟩ := Option.map_eq_some_iff.mp shown
  simp only [Prod.mk.injEq] at same
  obtain ⟨rfl, buffer, byte⟩ := same
  have recalls : Recalls extended (accepting (.read 0 2)) := along.reaches reached
  have same := ((recalls _ _ _ read).1 1 (by decide)).2
  change after.buf 1 = extended.bytes 1 at same
  rw [buffer, byte] at same
  exact absurd same (by decide)

end Ucore.Sfs
