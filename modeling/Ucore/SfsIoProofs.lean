import Ucore.SfsProofs

/-! Reading and writing a file through its block map. The whole blocks of a
range are moved in one go from the disk block of the first of them on, so the
content law holds exactly when these blocks follow one another on the disk. -/
namespace Ucore.Sfs
open Call

variable {node m after : Node} {write : Bool} {offset len alen pos size ino blkoff index : Nat}

/-! ## The law -/

/-- Byte `p` of a file, in the block its map names. -/
def byteAt (node : Node) (p : Nat) : UInt8 :=
  node.fs.disk (fileBlock node (p / blksize)) (p % blksize)

/-- Byte `i` of the buffer was moved from or to a place on the disk. -/
def Moves (node : Node) (i blkno off : Nat) : Prop :=
  ∃ pos blkoff size, (pos, blkno, blkoff, size) ∈ node.moved ∧ pos ≤ i ∧ i < pos + size ∧
    off = blkoff + (i - pos)

/-- The disk block of a file block: the one it had, or the one it got. -/
def Holds (node after : Node) (index blkno : Nat) : Prop :=
  if index < node.din.blocks then blkno = fileBlock node index
  else index < after.din.blocks ∧ blkno = fileBlock after index

/-- The superblock, or a block in use that is not this file's. -/
def Foreign (node : Node) (blkno : Nat) : Prop :=
  blkno = 0 ∨ (node.fs.freemap blkno = false ∧ blkno ≠ node.din.indirect ∧
    ∀ i < node.din.blocks, blkno ≠ fileBlock node i)

/-- Where a transfer ends. -/
def endOf (write : Bool) (node : Node) (offset len : Nat) : Nat :=
  if write then offset + len else max offset (min (offset + len) node.din.size)

/-- `alen` bytes of the file from `offset` on were read to the buffer or written from it. -/
structure ContentLaw (write : Bool) (node : Node) (offset len alen : Nat) (after : Node) : Prop where
  length : offset + alen = endOf write node offset len
  moves : ∀ i blkno off, Moves after i blkno off ↔
    i < alen ∧ Holds node after ((offset + i) / blksize) blkno ∧ off = (offset + i) % blksize
  buffer : ∀ i, after.buf i =
    if write = false ∧ i < alen then byteAt node (offset + i) else node.buf i
  size : after.din.size = if write then max node.din.size (offset + alen) else node.din.size
  written : write = true → ∀ i < alen, byteAt after (offset + i) = node.buf i
  kept : ∀ p < node.din.size, p < offset ∨ offset + alen ≤ p → byteAt after p = byteAt node p
  foreign : ∀ blkno, Foreign node blkno → after.fs.disk blkno = node.fs.disk blkno
  readonly : write = false → after.din = node.din ∧ after.fs.disk = node.fs.disk

/-- The blocks of a run follow its first one on the disk. -/
def Follow (node : Node) (first nblks : Nat) : Prop :=
  ∀ j, 0 < j → j < nblks →
    first + j < node.din.blocks ∧ fileBlock node (first + j) = fileBlock node first + j

/-- The whole blocks in the range of a transfer are such a run. -/
def Contiguous (write : Bool) (node : Node) (offset len : Nat) : Prop :=
  Follow node ((offset + (blksize - 1)) / blksize)
    (endOf write node offset len / blksize - (offset + (blksize - 1)) / blksize)

/-! ## One piece -/

/-- A piece was moved; what the disk or the buffer got from it. -/
structure Piece (write : Bool) (pos ino blkoff size : Nat) (node after : Node) : Prop where
  din : after.din = node.din
  moved : after.moved = node.moved ++ [(pos, ino, blkoff, size)]
  super : after.fs.blocks = node.fs.blocks ∧ after.fs.dBlocks = node.fs.dBlocks
  freemap : after.fs.freemap = node.fs.freemap
  unused : after.fs.unusedBlocks = node.fs.unusedBlocks
  others : ∀ d, d ≠ ino → after.fs.disk d = node.fs.disk d
  wrote : write = true → after.buf = node.buf ∧ ∀ i < blksize, after.fs.disk ino i =
    if blkoff ≤ i ∧ i < blkoff + size then node.buf (pos + (i - blkoff)) else node.fs.disk ino i
  loaded : write = false → after.fs.disk = node.fs.disk ∧ ∀ i, after.buf i =
    if pos ≤ i ∧ i < pos + size then node.fs.disk ino (blkoff + (i - pos)) else node.buf i

theorem bufOp_piece {result : Unit} (ran : Returns (bufOp write pos size ino blkoff) node result after)
    (mounted : Mounted node.fs) : Piece write pos ino blkoff size node after := by
  cases write with
  | true =>
    obtain ⟨data, _, got, ran⟩ := returns_bind.mp ran
    obtain ⟨rfl, rfl⟩ := returns_gets.mp got
    obtain ⟨_, _, wrote, ran⟩ := returns_bind.mp ran
    obtain ⟨fs, stored, rfl⟩ := returns_within.mp wrote
    obtain ⟨faults, rfl⟩ := wbuf_returns stored mounted
    obtain rfl := returns_modify.mp ran
    refine ⟨rfl, rfl, ⟨rfl, rfl⟩, rfl, rfl, fun d other => Function.update_of_ne other .., fun _ => ⟨rfl, ?_⟩,
      fun never => by cases never⟩
    intro i _
    dsimp only
    rw [Function.update_self]
    rfl
  | false =>
    obtain ⟨block, _, loaded, ran⟩ := returns_bind.mp ran
    obtain ⟨fs, fetched, rfl⟩ := returns_within.mp loaded
    obtain ⟨rfl, faults, rfl⟩ := rbuf_returns fetched mounted
    obtain ⟨_, _, stored, ran⟩ := returns_bind.mp ran
    obtain rfl := returns_modify.mp stored
    obtain rfl := returns_modify.mp ran
    exact ⟨rfl, rfl, ⟨rfl, rfl⟩, rfl, rfl, fun _ _ => rfl, (fun never => by cases never),
      fun _ => ⟨rfl, fun _ => rfl⟩⟩

theorem blockTransfer_piece {result : Unit}
    (ran : Returns (blockTransfer write pos ino) node result after) (mounted : Mounted node.fs) :
    Piece write pos ino 0 blksize node after := by
  cases write with
  | true =>
    obtain ⟨data, _, got, ran⟩ := returns_bind.mp ran
    obtain ⟨rfl, rfl⟩ := returns_gets.mp got
    obtain ⟨_, _, wrote, ran⟩ := returns_bind.mp ran
    obtain ⟨fs, stored, rfl⟩ := returns_within.mp wrote
    obtain ⟨_, _, faults, rfl⟩ := wblockNolock_returns stored mounted
    obtain rfl := returns_modify.mp ran
    refine ⟨rfl, rfl, ⟨rfl, rfl⟩, rfl, rfl, fun d other => Function.update_of_ne other .., fun _ => ⟨rfl, ?_⟩,
      fun never => by cases never⟩
    intro i below
    dsimp only
    rw [if_pos ⟨Nat.zero_le i, by omega⟩, Function.update_self]
    rfl
  | false =>
    obtain ⟨block, _, loaded, ran⟩ := returns_bind.mp ran
    obtain ⟨fs, fetched, rfl⟩ := returns_within.mp loaded
    obtain ⟨_, _, rfl, faults, rfl⟩ := rblockNolock_returns fetched mounted
    obtain ⟨_, _, stored, ran⟩ := returns_bind.mp ran
    obtain rfl := returns_modify.mp stored
    obtain rfl := returns_modify.mp ran
    exact ⟨rfl, rfl, ⟨rfl, rfl⟩, rfl, rfl, fun _ _ => rfl, (fun never => by cases never),
      fun _ => ⟨rfl, fun _ => rfl⟩⟩

/-! ## Soundness -/

/-- The map is in the inode and the indirect block. -/
theorem fileBlock_congr (din : after.din = node.din)
    (same : node.din.indirect ≠ 0 → after.fs.disk node.din.indirect = node.fs.disk node.din.indirect)
    (index : Nat) : fileBlock after index = fileBlock node index := by
  unfold fileBlock
  rw [din]
  by_cases absent : node.din.indirect = 0
  · rw [if_pos absent, if_pos absent]
  · rw [same absent]

theorem Sound.congr (sound : Sound node) (blocks : after.din.blocks = node.din.blocks)
    (indirect : after.din.indirect = node.din.indirect) (type : after.din.type = node.din.type)
    (super : after.fs.blocks = node.fs.blocks ∧ after.fs.dBlocks = node.fs.dBlocks)
    (freemap : after.fs.freemap = node.fs.freemap)
    (map : ∀ index, fileBlock after index = fileBlock node index) : Sound after := by
  have used : ∀ {d}, InUse node.fs d → InUse after.fs d := fun {d} held => by
    rw [InUse, super.1, freemap]
    exact held
  refine ⟨sound.mounted.congr super.1 super.2, ?_, ?_, ?_, ?_, ?_, ?_⟩
  · rw [type]
    exact sound.plain
  · rw [blocks]
    exact sound.room
  · intro i below
    rw [blocks] at below
    rw [map]
    exact used (sound.data i below)
  · intro i below j below' same
    rw [blocks] at below below'
    rw [map, map] at same
    exact sound.apart i below j below' same
  · intro i above inside
    rw [blocks] at above
    rw [map]
    exact sound.unmapped i above inside
  · intro present
    rw [indirect] at present ⊢
    obtain ⟨held, apart⟩ := sound.indirect present
    refine ⟨used held, fun i below => ?_⟩
    rw [blocks] at below
    rw [map]
    exact apart i below

/-- A data block is not the indirect block. -/
theorem Sound.data_ne_indirect (sound : Sound node) (inside : index < node.din.blocks) :
    fileBlock node index ≠ node.din.indirect := by
  intro same
  by_cases absent : node.din.indirect = 0
  · exact (sound.data index inside).1 (same.trans absent)
  · exact (sound.indirect absent).2 index inside same

/-- Data written to a block of the file leaves the map as it is. -/
theorem Piece.map (piece : Piece write pos (fileBlock node index) blkoff size node after)
    (sound : Sound node) (inside : index < node.din.blocks) (i : Nat) :
    fileBlock after i = fileBlock node i :=
  fileBlock_congr piece.din (fun _ => piece.others _ (sound.data_ne_indirect inside).symm) i

theorem Piece.sound (piece : Piece write pos (fileBlock node index) blkoff size node after)
    (sound : Sound node) (inside : index < node.din.blocks) : Sound after :=
  sound.congr (by rw [piece.din]) (by rw [piece.din]) (by rw [piece.din]) piece.super piece.freemap
    (piece.map sound inside)

/-- A new block is none of the file's. -/
theorem Sound.fresh_ne (sound : Sound node) (fresh : node.fs.freemap ino = true)
    (inside : index < node.din.blocks) : fileBlock node index ≠ ino := by
  intro same
  have used := (sound.data index inside).2.2
  rw [same, fresh] at used
  cases used

theorem Grown.map_old (grown : Grown node ino after) (inside : index < node.din.blocks) :
    fileBlock after index = fileBlock node index := by
  have room := grown.room
  rw [grown.map index (by omega), if_neg (by omega)]

theorem Grown.map_new (grown : Grown node ino after) : fileBlock after node.din.blocks = ino := by
  rw [grown.map _ grown.room, if_pos rfl]

/-- An extended file is sound. -/
theorem Grown.sound (grown : Grown node ino after) (sound : Sound node) : Sound after := by
  have used : ∀ {d}, InUse node.fs d → InUse after.fs d := fun {d} held => by
    rw [InUse, grown.super.1]
    exact ⟨held.1, held.2.1, grown.freemap.2 d held.2.2⟩
  have blocks := grown.blocks
  have cases_below : ∀ i < after.din.blocks, i < node.din.blocks ∨ i = node.din.blocks := by omega
  refine ⟨sound.mounted.congr grown.super.1 grown.super.2, ?_, ?_, ?_, ?_, ?_, ?_⟩
  · rw [grown.size.2]
    exact sound.plain
  · have room := grown.room
    omega
  · intro i below
    rcases cases_below i below with old | rfl
    · rw [grown.map_old old]
      exact used (sound.data i old)
    · rw [grown.map_new, InUse, grown.super.1]
      exact ⟨grown.valid.1, grown.valid.2, grown.freemap.1⟩
  · intro i below j below' same
    rcases cases_below i below with old | rfl <;> rcases cases_below j below' with old' | rfl
    · rw [grown.map_old old, grown.map_old old'] at same
      exact sound.apart i old j old' same
    · rw [grown.map_old old, grown.map_new] at same
      exact absurd same (sound.fresh_ne grown.fresh old)
    · rw [grown.map_old old', grown.map_new] at same
      exact absurd same.symm (sound.fresh_ne grown.fresh old')
    · rfl
  · intro i above inside
    rw [grown.map i inside, if_neg (by omega)]
    exact sound.unmapped i (by omega) inside
  · intro present
    rcases grown.indirect with same | ⟨absent, fresh, held, apart⟩
    · rw [same] at present ⊢
      obtain ⟨held, apart⟩ := sound.indirect present
      refine ⟨used held, fun i below => ?_⟩
      rcases cases_below i below with old | rfl
      · rw [grown.map_old old]
        exact apart i old
      · rw [grown.map_new]
        exact (sound.indirect_ne grown.fresh present).symm
    · refine ⟨held, fun i below => ?_⟩
      rcases cases_below i below with old | rfl
      · rw [grown.map_old old]
        exact sound.fresh_ne fresh old
      · rw [grown.map_new]
        exact apart.symm

/-- Extending a file keeps its bytes. -/
theorem Grown.bytes (grown : Grown node ino after) (sound : Sound node)
    (inside : p / blksize < node.din.blocks) : byteAt after p = byteAt node p := by
  unfold byteAt
  rw [grown.map_old inside, grown.disk _ (sound.fresh_ne grown.fresh inside)]
  intro _
  rcases grown.indirect with same | ⟨_, fresh, _, _⟩
  · rw [same]
    exact sound.data_ne_indirect inside
  · exact sound.fresh_ne fresh inside

/-! ## A transfer in progress -/

/-- The first `pos` bytes of a transfer that began in `node` are done. -/
structure Progress (write : Bool) (node : Node) (offset pos : Nat) (m : Node) : Prop where
  sound : Sound m
  blocks : node.din.blocks ≤ m.din.blocks
  map : ∀ i < node.din.blocks, fileBlock m i = fileBlock node i
  fresh : ∀ i, node.din.blocks ≤ i → i < m.din.blocks → node.fs.freemap (fileBlock m i) = true
  used : ∀ d, node.fs.freemap d = false → m.fs.freemap d = false
  indirect : m.din.indirect = node.din.indirect ∨ node.fs.freemap m.din.indirect = true
  size : m.din.size = node.din.size
  covered : ∀ i < pos, (offset + i) / blksize < m.din.blocks
  moves : ∀ i d off, Moves m i d off ↔
    i < pos ∧ d = fileBlock m ((offset + i) / blksize) ∧ off = (offset + i) % blksize
  buffer : ∀ i, m.buf i = if write = false ∧ i < pos then byteAt node (offset + i) else node.buf i
  bytes : ∀ p, p / blksize < node.din.blocks ∨ (offset ≤ p ∧ p < offset + pos) → byteAt m p =
    if write = true ∧ offset ≤ p ∧ p < offset + pos then node.buf (p - offset) else byteAt node p
  foreign : ∀ d, Foreign node d → m.fs.disk d = node.fs.disk d
  readonly : write = false → m.din = node.din ∧ m.fs.disk = node.fs.disk

theorem Progress.start (sound : Sound node) (quiet : node.moved = []) :
    Progress write node offset 0 node := by
  refine ⟨sound, Nat.le_refl _, fun _ _ => rfl, by omega, fun _ used => used, .inl rfl, rfl, by omega,
    ?_, ?_, ?_, fun _ _ => rfl, fun _ => ⟨rfl, rfl⟩⟩
  · simp [Moves, quiet]
  · simp
  · intro p _
    rw [if_neg (by omega)]

/-- A block in use that was free before is not foreign. -/
theorem Foreign.ne_fresh (foreign : Foreign node d) (fresh : node.fs.freemap ino = true)
    (nonzero : ino ≠ 0) : d ≠ ino := by
  rintro rfl
  rcases foreign with zero | ⟨used, _⟩
  · exact nonzero zero
  · rw [fresh] at used
    cases used

/-- What was free later on was free before. -/
theorem Progress.free_before (progress : Progress write node offset pos m)
    (free : m.fs.freemap d = true) : node.fs.freemap d = true := by
  cases before : node.fs.freemap d with
  | true => rfl
  | false =>
    rw [progress.used d before] at free
    cases free

/-- No block of the file is foreign. -/
theorem Progress.foreign_ne (progress : Progress write node offset pos m) (foreign : Foreign node d)
    (inside : index < m.din.blocks) : d ≠ fileBlock m index := by
  by_cases old : index < node.din.blocks
  · rintro rfl
    rcases foreign with zero | ⟨_, _, apart⟩
    · exact (progress.sound.data index inside).1 zero
    · exact apart index old (progress.map index old)
  · exact foreign.ne_fresh (progress.fresh index (by omega) inside) (progress.sound.data index inside).1

theorem Progress.grown (progress : Progress true node offset pos m) (grown : Grown m ino after) :
    Progress true node offset pos after := by
  have blocks := grown.blocks
  have old := progress.blocks
  have cases_below : ∀ i < after.din.blocks, i < m.din.blocks ∨ i = m.din.blocks := by omega
  have fresh : node.fs.freemap ino = true := progress.free_before grown.fresh
  have keeps : ∀ p, p / blksize < node.din.blocks ∨ (offset ≤ p ∧ p < offset + pos) →
      p / blksize < m.din.blocks := by
    rintro p (inside | ⟨above, below⟩)
    · omega
    · have covered := progress.covered (p - offset) (by omega)
      rwa [show offset + (p - offset) = p by omega] at covered
  refine ⟨grown.sound progress.sound, by omega, ?_, ?_, ?_, ?_, ?_, ?_, ?_, ?_, ?_, ?_,
    fun never => by cases never⟩
  · intro i inside
    rw [grown.map_old (by omega), progress.map i inside]
  · intro i above inside
    rcases cases_below i inside with below | rfl
    · rw [grown.map_old below]
      exact progress.fresh i above below
    · rw [grown.map_new]
      exact fresh
  · exact fun d held => grown.freemap.2 d (progress.used d held)
  · rcases grown.indirect with same | ⟨_, free, _, _⟩
    · rw [same]
      exact progress.indirect
    · exact .inr (progress.free_before free)
  · rw [grown.size.1, progress.size]
  · intro i done
    have covered := progress.covered i done
    omega
  · intro i d off
    have same : Moves after i d off ↔ Moves m i d off := by
      rw [Moves, Moves, grown.buffer.2]
    rw [same, progress.moves]
    constructor
    · rintro ⟨done, rfl, rfl⟩
      exact ⟨done, (grown.map_old (progress.covered i done)).symm, rfl⟩
    · rintro ⟨done, rfl, rfl⟩
      exact ⟨done, grown.map_old (progress.covered i done), rfl⟩
  · rw [grown.buffer.1]
    exact progress.buffer
  · intro p inside
    rw [grown.bytes progress.sound (keeps p inside), progress.bytes p inside]
  · intro d foreign
    rw [grown.disk d (foreign.ne_fresh fresh grown.valid.1), progress.foreign d foreign]
    intro nonzero
    rcases grown.indirect with same | ⟨_, free, held, _⟩
    · rw [same]
      rcases progress.indirect with same | free
      · rw [same]
        rcases foreign with zero | ⟨_, apart, _⟩
        · exact absurd zero nonzero
        · exact apart
      · rintro rfl
        rcases foreign with zero | ⟨used, _, _⟩
        · exact nonzero zero
        · rw [free] at used
          cases used
    · exact foreign.ne_fresh (progress.free_before free) held.1

/-- `sfs_bmap_load_nolock` in the course of a transfer. -/
theorem Progress.load (progress : Progress write node offset pos m)
    (ran : Returns (bmapLoad index) m ino after)
    (existing : write = false → index < node.din.blocks) :
    Progress write node offset pos after ∧ ino = fileBlock after index ∧ index < after.din.blocks := by
  rcases bmapLoad_returns progress.sound ran with ⟨inside, rfl, faults, rfl⟩ | ⟨rfl, grown⟩
  · refine ⟨⟨?_, progress.blocks, progress.map, progress.fresh, progress.used, progress.indirect,
      progress.size, progress.covered, progress.moves, progress.buffer, progress.bytes,
      progress.foreign, progress.readonly⟩, rfl, inside⟩
    exact progress.sound.congr rfl rfl rfl ⟨rfl, rfl⟩ rfl fun _ => rfl
  · cases write with
    | false =>
      have old := progress.blocks
      have below := existing rfl
      omega
    | true =>
      refine ⟨progress.grown grown, grown.map_new.symm, ?_⟩
      rw [grown.blocks]
      omega

theorem Piece.moves (piece : Piece write pos ino blkoff size node after) :
    Moves after i d off ↔ Moves node i d off ∨
      (pos ≤ i ∧ i < pos + size ∧ d = ino ∧ off = blkoff + (i - pos)) := by
  unfold Moves
  rw [piece.moved]
  simp only [List.mem_append, List.mem_singleton, Prod.mk.injEq]
  constructor
  · rintro ⟨p, o, n, member | ⟨rfl, rfl, rfl, rfl⟩, rest⟩
    · exact .inl ⟨p, o, n, member, rest⟩
    · exact .inr ⟨rest.1, rest.2.1, rfl, rest.2.2⟩
  · rintro (⟨p, o, n, member, rest⟩ | ⟨above, below, rfl, same⟩)
    · exact ⟨p, o, n, .inl member, rest⟩
    · exact ⟨pos, blkoff, size, .inr ⟨rfl, rfl, rfl, rfl⟩, above, below, same⟩

/-- The bytes of a file after a piece was written. -/
theorem Piece.bytes (piece : Piece true pos (fileBlock node index) blkoff size node after)
    (sound : Sound node) (inside : index < node.din.blocks) (below : p / blksize < node.din.blocks) :
    byteAt after p =
      if index * blksize + blkoff ≤ p ∧ p < index * blksize + blkoff + size ∧ p / blksize = index
      then node.buf (pos + (p % blksize - blkoff)) else byteAt node p := by
  have small : p % blksize < blksize := Nat.mod_lt _ (by decide)
  have split := Nat.div_add_mod p blksize
  unfold byteAt
  rw [piece.map sound inside]
  by_cases same : p / blksize = index
  · rw [same, (piece.wrote rfl).2 _ small]
    rw [same, Nat.mul_comm] at split
    by_cases part : blkoff ≤ p % blksize ∧ p % blksize < blkoff + size
    · rw [if_pos part, if_pos ⟨by omega, by omega, rfl⟩]
    · rw [if_neg part, if_neg (by omega)]
  · rw [piece.others, if_neg (fun all => same all.2.2)]
    exact fun eq => same (sound.apart _ below _ inside eq)

/-- One more piece, where the file has it. -/
theorem Progress.piece (progress : Progress write node offset pos m)
    (piece : Piece write pos (fileBlock m index) blkoff size m after) (inside : index < m.din.blocks)
    (place : offset + pos = index * blksize + blkoff) (fits : blkoff + size ≤ blksize) :
    Progress write node offset (pos + size) after := by
  have map := piece.map progress.sound inside
  -- where the bytes of the piece are
  have located : ∀ i, pos ≤ i → i < pos + size →
      (offset + i) / blksize = index ∧ (offset + i) % blksize = blkoff + (i - pos) := by
    intro i above below
    have eq : offset + i = blkoff + (i - pos) + index * blksize := by omega
    rw [eq, Nat.add_mul_div_right _ _ (by decide), Nat.add_mul_mod_self_right]
    exact ⟨by rw [Nat.div_eq_of_lt (by omega)]; omega, Nat.mod_eq_of_lt (by omega)⟩
  have keeps : ∀ p, p / blksize < node.din.blocks ∨ (offset ≤ p ∧ p < offset + (pos + size)) →
      p / blksize < m.din.blocks := by
    rintro p (below | ⟨above, below⟩)
    · have old := progress.blocks
      omega
    · by_cases done : p - offset < pos
      · have covered := progress.covered (p - offset) done
        rwa [show offset + (p - offset) = p by omega] at covered
      · have place := (located (p - offset) (by omega) (by omega)).1
        rw [show offset + (p - offset) = p by omega] at place
        rwa [place]
  refine ⟨piece.sound progress.sound inside, ?_, ?_, ?_, ?_, ?_, ?_, ?_, ?_, ?_, ?_, ?_, ?_⟩
  · rw [piece.din]
    exact progress.blocks
  · intro i below
    rw [map, progress.map i below]
  · intro i above below
    rw [piece.din] at below
    rw [map]
    exact progress.fresh i above below
  · rw [piece.freemap]
    exact progress.used
  · rw [piece.din]
    exact progress.indirect
  · rw [piece.din, progress.size]
  · intro i done
    rw [piece.din]
    by_cases before : i < pos
    · exact progress.covered i before
    · rw [(located i (by omega) done).1]
      exact inside
  · intro i d off
    rw [piece.moves, progress.moves, map]
    constructor
    · rintro (⟨done, rest⟩ | ⟨above, below, rfl, rfl⟩)
      · exact ⟨by omega, rest⟩
      · have place := located i above below
        rw [place.1]
        exact ⟨below, rfl, place.2.symm⟩
    · rintro ⟨done, rfl, rfl⟩
      by_cases before : i < pos
      · exact .inl ⟨before, rfl, rfl⟩
      · have place := located i (by omega) done
        rw [place.1]
        exact .inr ⟨by omega, done, rfl, place.2⟩
  · intro i
    cases write with
    | true =>
      rw [(piece.wrote rfl).1, progress.buffer]
      simp
    | false =>
      rw [(piece.loaded rfl).2, progress.buffer]
      by_cases before : i < pos
      · rw [if_neg (by omega), if_pos ⟨rfl, before⟩, if_pos ⟨rfl, by omega⟩]
      · by_cases now : i < pos + size
        · have place := located i (by omega) now
          have old : index < node.din.blocks := by rwa [(progress.readonly rfl).1] at inside
          rw [if_pos ⟨by omega, now⟩, if_pos ⟨rfl, now⟩, byteAt, place.1, place.2,
            progress.map index old, (progress.readonly rfl).2]
        · rw [if_neg (by omega), if_neg (by omega), if_neg (by omega)]
  · intro p reach
    have below := keeps p reach
    cases write with
    | true =>
      rw [piece.bytes progress.sound inside below]
      by_cases now : offset + pos ≤ p ∧ p < offset + (pos + size)
      · have spot := located (p - offset) (by omega) (by omega)
        rw [show offset + (p - offset) = p by omega] at spot
        rw [if_pos ⟨by omega, by omega, spot.1⟩, if_pos ⟨rfl, by omega, by omega⟩, progress.buffer,
          if_neg (by simp)]
        congr 1
        omega
      · rw [if_neg (by omega), progress.bytes p (by omega)]
        by_cases done : offset ≤ p ∧ p < offset + pos
        · rw [if_pos ⟨rfl, done⟩, if_pos ⟨rfl, by omega⟩]
        · rw [if_neg (by omega), if_neg (by omega)]
    | false =>
      have reach : p / blksize < node.din.blocks := by rwa [(progress.readonly rfl).1] at below
      rw [if_neg (by simp), byteAt, map, (piece.loaded rfl).1]
      have before := progress.bytes p (.inl reach)
      rwa [if_neg (by simp)] at before
  · intro d foreign
    rw [piece.others d (progress.foreign_ne foreign inside), progress.foreign d foreign]
  · intro reading
    rw [piece.din, (piece.loaded reading).1]
    exact progress.readonly reading

/-! ## The three parts -/

/-- Whole blocks, where the file has them one after another. -/
theorem Progress.blockOp {nblks : Nat} {result : Unit} (progress : Progress write node offset pos m)
    (ran : Returns (blockOp write pos ino nblks) m result after)
    (consecutive : ∀ j < nblks, index + j < m.din.blocks ∧ fileBlock m (index + j) = ino + j)
    (place : offset + pos = index * blksize) :
    Progress write node offset (pos + nblks * blksize) after := by
  induction nblks generalizing m pos ino index with
  | zero =>
    obtain ⟨_, rfl⟩ := returns_pure.mp ran
    rwa [Nat.zero_mul]
  | succ nblks ih =>
    obtain ⟨_, between, moved, rest⟩ := returns_bind.mp ran
    obtain ⟨inside, same⟩ := consecutive 0 (by omega)
    rw [Nat.add_zero, Nat.add_zero] at same
    have piece := blockTransfer_piece moved progress.sound.mounted
    rw [← same] at piece
    have map := piece.map progress.sound inside
    have later : ∀ j < nblks,
        index + 1 + j < between.din.blocks ∧ fileBlock between (index + 1 + j) = ino + 1 + j := by
      intro j below
      have later := consecutive (j + 1) (by omega)
      rw [map, piece.din, show index + 1 + j = index + (j + 1) by omega,
        show ino + 1 + j = ino + (j + 1) by omega]
      exact later
    have next := ih (progress.piece piece inside (place.trans (Nat.add_zero _).symm) (by omega)) rest later
      (by rw [Nat.add_mul]; omega)
    rwa [show pos + blksize + nblks * blksize = pos + (nblks + 1) * blksize by
      rw [Nat.add_mul]; omega] at next

/-- The label `out` after a transfer that went well. -/
theorem finish_returns {result : Nat × Except Int Unit} {outcome : Except Int Unit}
    (ran : Returns (finish offset alen outcome) m result after) :
    result = (alen, outcome) ∧ ∃ dirty, after = { m with
      din := { m.din with size := max m.din.size (offset + alen) }, dirty := dirty } := by
  obtain ⟨_, _, got, ran⟩ := returns_bind.mp ran
  obtain ⟨rfl, rfl⟩ := returns_gets.mp got
  obtain ⟨_, _, sized, ran⟩ := returns_bind.mp ran
  obtain ⟨rfl, rfl⟩ := returns_pure.mp ran
  refine ⟨rfl, ?_⟩
  rcases returns_onlyIf.mp sized with ⟨longer, stored⟩ | ⟨within, rfl⟩
  · obtain rfl := returns_modify.mp stored
    rw [Nat.max_eq_right (Nat.le_of_lt (of_decide_eq_true longer))]
    exact ⟨_, rfl⟩
  · rw [Nat.max_eq_left (Nat.le_of_not_lt (of_decide_eq_false within))]
    exact ⟨_, rfl⟩

/-- A part that failed ends the call. -/
theorem finish_failed {ret : Int} : ¬ Returns (finish offset pos (.error ret)) m (alen, .ok ()) after := by
  intro ran
  have same := (finish_returns ran).1
  cases same

/-- The bytes up to `endpos` are done. -/
def Done (write : Bool) (node : Node) (offset endpos alen : Nat) (after : Node) : Prop :=
  offset + alen = endpos ∧ ∃ m, Progress write node offset alen m ∧
    ∃ dirty, after = { m with
      din := { m.din with size := max m.din.size (offset + alen) }, dirty := dirty }

variable {endpos blkno : Nat}

theorem Progress.tail (progress : Progress write node offset pos m)
    (ran : Returns (ioTail write offset endpos pos blkno) m (alen, .ok ()) after)
    (place : offset + pos = blkno * blksize) (last : endpos / blksize = blkno)
    (existing : write = false → (endpos + (blksize - 1)) / blksize ≤ node.din.blocks) :
    Done write node offset endpos alen after := by
  have split := Nat.div_add_mod endpos blksize
  rw [last, Nat.mul_comm] at split
  unfold ioTail at ran
  by_cases whole : endpos % blksize = 0
  · rw [if_neg (by simpa using whole)] at ran
    obtain ⟨same, dirty, rfl⟩ := finish_returns ran
    obtain ⟨rfl, -⟩ := Prod.mk.inj same
    exact ⟨by omega, m, progress, dirty, rfl⟩
  · rw [if_pos (by simpa using whole)] at ran
    obtain ⟨outcome, _, tried, rest⟩ := returns_bind.mp ran
    cases outcome with
    | error ret => exact absurd rest finish_failed
    | ok done =>
      obtain ⟨ino, between, loaded, moved⟩ := returns_bind.mp (returns_attempt_ok.mp tried)
      obtain ⟨same, dirty, rfl⟩ := finish_returns rest
      obtain ⟨rfl, -⟩ := Prod.mk.inj same
      have small : endpos % blksize < blksize := Nat.mod_lt _ (by decide)
      obtain ⟨progress, rfl, inside⟩ := progress.load loaded fun reading => by
        refine Nat.lt_of_lt_of_le ?_ (existing reading)
        rw [Nat.lt_div_iff_mul_lt (by decide), ← last]
        simp only [blksize] at *
        omega
      exact ⟨by omega, _, progress.piece (bufOp_piece moved progress.sound.mounted) inside
        (place.trans (Nat.add_zero _).symm) (by omega),
        dirty, rfl⟩

theorem Progress.run {nblks : Nat} (progress : Progress write node offset pos m)
    (ran : Returns (ioBlocks write offset endpos pos blkno nblks) m (alen, .ok ()) after)
    (place : offset + pos = blkno * blksize) (last : endpos / blksize = blkno + nblks)
    (existing : write = false → (endpos + (blksize - 1)) / blksize ≤ node.din.blocks)
    (follow : Follow node blkno nblks) : Done write node offset endpos alen after := by
  unfold ioBlocks at ran
  by_cases some_blocks : 0 < nblks
  · rw [if_pos some_blocks] at ran
    obtain ⟨outcome, _, tried, rest⟩ := returns_bind.mp ran
    cases outcome with
    | error ret => exact absurd rest finish_failed
    | ok done =>
      obtain ⟨ino, between, loaded, moved⟩ := returns_bind.mp (returns_attempt_ok.mp tried)
      obtain ⟨progress, rfl, inside⟩ := progress.load loaded fun reading => by
        have enough := existing reading
        have rounded : endpos / blksize ≤ (endpos + (blksize - 1)) / blksize :=
          Nat.div_le_div_right (by omega)
        omega
      refine (progress.blockOp moved ?_ place).tail rest ?_ last existing
      · intro j below
        by_cases first : j = 0
        · rw [first]
          exact ⟨inside, rfl⟩
        · obtain ⟨old, next⟩ := follow j (by omega) below
          have grown := progress.blocks
          rw [progress.map _ old, progress.map _ (by omega)]
          exact ⟨by omega, next⟩
      · rw [Nat.add_mul]
        omega
  · rw [if_neg some_blocks] at ran
    exact progress.tail ran place (by omega) existing

theorem Progress.head (progress : Progress write node offset 0 m)
    (ran : Returns (ioHead write offset endpos) m (alen, .ok ()) after) (some_bytes : offset < endpos)
    (existing : write = false → (endpos + (blksize - 1)) / blksize ≤ node.din.blocks)
    (follow : Follow node ((offset + (blksize - 1)) / blksize)
      (endpos / blksize - (offset + (blksize - 1)) / blksize)) :
    Done write node offset endpos alen after := by
  have split := Nat.div_add_mod offset blksize
  have ordered : offset / blksize ≤ endpos / blksize := Nat.div_le_div_right (by omega)
  rw [Nat.mul_comm] at split
  unfold ioHead at ran
  by_cases aligned : offset % blksize = 0
  · rw [if_neg (by simpa using aligned)] at ran
    have first : (offset + (blksize - 1)) / blksize = offset / blksize := by
      simp only [blksize] at *
      omega
    rw [first] at follow
    exact progress.run ran (by omega) (by omega) existing follow
  · rw [if_pos (by simpa using aligned)] at ran
    have first : (offset + (blksize - 1)) / blksize = offset / blksize + 1 := by
      simp only [blksize] at *
      omega
    rw [first] at follow
    obtain ⟨outcome, _, tried, rest⟩ := returns_bind.mp ran
    cases outcome with
    | error ret => exact absurd rest finish_failed
    | ok done =>
      obtain ⟨ino, between, loaded, moved⟩ := returns_bind.mp (returns_attempt_ok.mp tried)
      obtain ⟨progress, rfl, inside⟩ := progress.load loaded fun reading => by
        have enough := existing reading
        simp only [blksize] at *
        omega
      have piece := bufOp_piece moved progress.sound.mounted
      have fits : offset % blksize +
          (if endpos / blksize - offset / blksize ≠ 0 then blksize - offset % blksize
            else endpos - offset) ≤ blksize := by
        by_cases within : endpos / blksize - offset / blksize = 0
        · rw [if_neg (by simpa using within)]
          simp only [blksize] at *
          omega
        · rw [if_pos within]
          simp only [blksize] at *
          omega
      have progress := progress.piece piece inside (by omega) fits
      rw [Nat.zero_add] at progress
      by_cases within : endpos / blksize - offset / blksize = 0
      · rw [if_pos within] at rest
        rw [if_neg (by simpa using within)] at rest progress
        obtain ⟨same, dirty, rfl⟩ := finish_returns rest
        obtain ⟨rfl, -⟩ := Prod.mk.inj same
        exact ⟨by omega, _, progress, dirty, rfl⟩
      · rw [if_neg within] at rest
        rw [if_pos (by simpa using within)] at rest progress
        have small : offset % blksize < blksize := Nat.mod_lt _ (by decide)
        refine progress.run rest ?_ (by omega) existing (by rwa [Nat.sub_sub])
        rw [Nat.add_mul]
        omega

/-! ## What any successful transfer leaves behind -/

theorem bmapGet_counts {create : Bool} (ran : Returns (bmapGet index create) m ino after) :
    after.din.blocks = m.din.blocks ∧ after.moved = m.moved := by
  unfold bmapGet at ran
  obtain ⟨_, _, got, ran⟩ := returns_bind.mp ran
  obtain ⟨rfl, rfl⟩ := returns_gets.mp got
  split at ran
  · split at ran
    · obtain ⟨_, _, alloc, rest⟩ := returns_bind.mp ran
      obtain ⟨fs, _, rfl⟩ := returns_within.mp alloc
      obtain ⟨_, _, stored, more⟩ := returns_bind.mp rest
      obtain rfl := returns_modify.mp stored
      obtain ⟨_, _, checked, ending⟩ := returns_bind.mp more
      obtain rfl := onlyIf_checkedInuse checked
      obtain ⟨_, rfl⟩ := returns_pure.mp ending
      exact ⟨rfl, rfl⟩
    · obtain ⟨_, _, checked, ending⟩ := returns_bind.mp ran
      obtain rfl := onlyIf_checkedInuse checked
      obtain ⟨_, rfl⟩ := returns_pure.mp ending
      exact ⟨rfl, rfl⟩
  · split at ran
    · obtain ⟨_, _, sub, rest⟩ := returns_bind.mp ran
      obtain ⟨fs, _, rfl⟩ := returns_within.mp sub
      obtain ⟨_, _, linked, more⟩ := returns_bind.mp rest
      obtain ⟨_, _, checked, ending⟩ := returns_bind.mp more
      obtain rfl := onlyIf_checkedInuse checked
      obtain ⟨_, rfl⟩ := returns_pure.mp ending
      rcases returns_onlyIf.mp linked with ⟨_, link⟩ | ⟨_, rfl⟩
      · obtain ⟨_, _, asserted, link⟩ := returns_bind.mp link
        obtain ⟨_, rfl⟩ := returns_assert.mp asserted
        obtain rfl := returns_modify.mp link
        exact ⟨rfl, rfl⟩
      · exact ⟨rfl, rfl⟩
    · exact absurd ran not_returns_stop

theorem bmapLoad_counts (ran : Returns (bmapLoad index) m ino after) :
    index ≤ m.din.blocks ∧ after.din.blocks = max m.din.blocks (index + 1) ∧ after.moved = m.moved := by
  unfold bmapLoad at ran
  obtain ⟨_, _, got, ran⟩ := returns_bind.mp ran
  obtain ⟨rfl, rfl⟩ := returns_gets.mp got
  obtain ⟨_, _, checked, ran⟩ := returns_bind.mp ran
  obtain ⟨inside, rfl⟩ := returns_assert.mp checked
  have le := of_decide_eq_true inside
  obtain ⟨_, _, found, rest⟩ := returns_bind.mp ran
  obtain ⟨blocks, moved⟩ := bmapGet_counts found
  obtain ⟨_, _, checked, more⟩ := returns_bind.mp rest
  obtain ⟨_, rfl⟩ := checkedInuse_returns checked
  obtain ⟨_, _, counted, ending⟩ := returns_bind.mp more
  obtain ⟨_, rfl⟩ := returns_pure.mp ending
  rcases returns_onlyIf.mp counted with ⟨last, grown⟩ | ⟨before, rfl⟩
  · have last := of_decide_eq_true last
    obtain rfl := returns_modify.mp grown
    exact ⟨le, by dsimp only; omega, moved⟩
  · have before := of_decide_eq_false before
    exact ⟨le, by omega, moved⟩

theorem bufOp_counts {result : Unit} (ran : Returns (bufOp write pos size ino blkoff) m result after) :
    after.din = m.din ∧ after.moved = m.moved ++ [(pos, ino, blkoff, size)] := by
  cases write with
  | true =>
    obtain ⟨data, _, got, ran⟩ := returns_bind.mp ran
    obtain ⟨rfl, rfl⟩ := returns_gets.mp got
    obtain ⟨_, _, wrote, ran⟩ := returns_bind.mp ran
    obtain ⟨fs, _, rfl⟩ := returns_within.mp wrote
    obtain rfl := returns_modify.mp ran
    exact ⟨rfl, rfl⟩
  | false =>
    obtain ⟨block, _, loaded, ran⟩ := returns_bind.mp ran
    obtain ⟨fs, _, rfl⟩ := returns_within.mp loaded
    obtain ⟨_, _, stored, ran⟩ := returns_bind.mp ran
    obtain rfl := returns_modify.mp stored
    obtain rfl := returns_modify.mp ran
    exact ⟨rfl, rfl⟩

theorem blockTransfer_counts {result : Unit} (ran : Returns (blockTransfer write pos ino) m result after) :
    after.din = m.din ∧ after.moved = m.moved ++ [(pos, ino, 0, blksize)] := by
  cases write with
  | true =>
    obtain ⟨data, _, got, ran⟩ := returns_bind.mp ran
    obtain ⟨rfl, rfl⟩ := returns_gets.mp got
    obtain ⟨_, _, wrote, ran⟩ := returns_bind.mp ran
    obtain ⟨fs, _, rfl⟩ := returns_within.mp wrote
    obtain rfl := returns_modify.mp ran
    exact ⟨rfl, rfl⟩
  | false =>
    obtain ⟨block, _, loaded, ran⟩ := returns_bind.mp ran
    obtain ⟨fs, _, rfl⟩ := returns_within.mp loaded
    obtain ⟨_, _, stored, ran⟩ := returns_bind.mp ran
    obtain rfl := returns_modify.mp stored
    obtain rfl := returns_modify.mp ran
    exact ⟨rfl, rfl⟩

theorem blockOp_counts {nblks : Nat} {result : Unit}
    (ran : Returns (blockOp write pos ino nblks) m result after) :
    after.din = m.din ∧ (∀ piece ∈ m.moved, piece ∈ after.moved) ∧
      ∀ j < nblks, (pos + j * blksize, ino + j, 0, blksize) ∈ after.moved := by
  induction nblks generalizing m pos ino with
  | zero =>
    obtain ⟨_, rfl⟩ := returns_pure.mp ran
    exact ⟨rfl, fun _ member => member, by omega⟩
  | succ nblks ih =>
    obtain ⟨_, between, moved, rest⟩ := returns_bind.mp ran
    obtain ⟨din, trace⟩ := blockTransfer_counts moved
    obtain ⟨same, keeps, later⟩ := ih rest
    rw [trace] at keeps
    refine ⟨same.trans din, fun piece member => keeps _ (List.mem_append_left _ member), fun j below => ?_⟩
    cases j with
    | zero =>
      rw [Nat.zero_mul]
      exact keeps _ (List.mem_append_right _ (List.mem_singleton.mpr rfl))
    | succ j =>
      have member := later j (by omega)
      rwa [show pos + blksize + j * blksize = pos + (j + 1) * blksize by rw [Nat.add_mul]; omega,
        show ino + 1 + j = ino + (j + 1) by omega] at member

theorem ioTail_counts (ran : Returns (ioTail write offset endpos pos blkno) m (alen, .ok ()) after) :
    (∀ piece ∈ m.moved, piece ∈ after.moved) ∧
      (after.din.blocks = m.din.blocks ∨ blkno ≤ m.din.blocks) := by
  unfold ioTail at ran
  by_cases whole : endpos % blksize = 0
  · rw [if_neg (by simpa using whole)] at ran
    obtain ⟨_, dirty, rfl⟩ := finish_returns ran
    exact ⟨fun _ member => member, .inl rfl⟩
  · rw [if_pos (by simpa using whole)] at ran
    obtain ⟨outcome, _, tried, rest⟩ := returns_bind.mp ran
    cases outcome with
    | error ret => exact absurd rest finish_failed
    | ok done =>
      obtain ⟨ino, between, loaded, moved⟩ := returns_bind.mp (returns_attempt_ok.mp tried)
      obtain ⟨inside, _, same⟩ := bmapLoad_counts loaded
      obtain ⟨_, trace⟩ := bufOp_counts moved
      obtain ⟨_, dirty, rfl⟩ := finish_returns rest
      refine ⟨fun piece member => ?_, .inr inside⟩
      dsimp only
      rw [trace, same]
      exact List.mem_append_left _ member

/-- A run of two or more blocks is moved from or to consecutive disk blocks; of
the blocks behind the end of the file it can add the first only. -/
theorem ioBlocks_counts {nblks : Nat} (many : 2 ≤ nblks)
    (ran : Returns (ioBlocks write offset endpos pos blkno nblks) m (alen, .ok ()) after) :
    ∃ ino, (∀ j < nblks, (pos + j * blksize, ino + j, 0, blksize) ∈ after.moved) ∧
      (blkno + nblks ≤ m.din.blocks ∨ after.din.blocks < blkno + nblks) := by
  unfold ioBlocks at ran
  rw [if_pos (by omega)] at ran
  obtain ⟨outcome, _, tried, rest⟩ := returns_bind.mp ran
  cases outcome with
  | error ret => exact absurd rest finish_failed
  | ok done =>
    obtain ⟨ino, between, loaded, moved⟩ := returns_bind.mp (returns_attempt_ok.mp tried)
    obtain ⟨inside, blocks, _⟩ := bmapLoad_counts loaded
    obtain ⟨din, _, trace⟩ := blockOp_counts moved
    obtain ⟨keeps, grown⟩ := ioTail_counts rest
    rw [din] at grown
    exact ⟨ino, fun j below => keeps _ (trace j below), by omega⟩

theorem ioHead_counts (many : 2 ≤ endpos / blksize - (offset + (blksize - 1)) / blksize)
    (ran : Returns (ioHead write offset endpos) m (alen, .ok ()) after) :
    ∃ pos ino, offset + pos = (offset + (blksize - 1)) / blksize * blksize ∧
      (∀ j < endpos / blksize - (offset + (blksize - 1)) / blksize,
        (pos + j * blksize, ino + j, 0, blksize) ∈ after.moved) ∧
      (endpos / blksize ≤ m.din.blocks ∨ after.din.blocks < endpos / blksize) := by
  have split := Nat.div_add_mod offset blksize
  rw [Nat.mul_comm] at split
  unfold ioHead at ran
  by_cases aligned : offset % blksize = 0
  · rw [if_neg (by simpa using aligned)] at ran
    have first : (offset + (blksize - 1)) / blksize = offset / blksize := by
      simp only [blksize] at *
      omega
    rw [first] at many ⊢
    obtain ⟨ino, trace, grown⟩ := ioBlocks_counts many ran
    exact ⟨0, ino, by omega, trace, by omega⟩
  · rw [if_pos (by simpa using aligned)] at ran
    have first : (offset + (blksize - 1)) / blksize = offset / blksize + 1 := by
      simp only [blksize] at *
      omega
    rw [first] at many ⊢
    obtain ⟨outcome, _, tried, rest⟩ := returns_bind.mp ran
    cases outcome with
    | error ret => exact absurd rest finish_failed
    | ok done =>
      obtain ⟨ino, between, loaded, moved⟩ := returns_bind.mp (returns_attempt_ok.mp tried)
      obtain ⟨inside, blocks, _⟩ := bmapLoad_counts loaded
      obtain ⟨din, _⟩ := bufOp_counts moved
      rw [if_neg (by omega), if_pos (by omega)] at rest
      obtain ⟨ino, trace, grown⟩ := ioBlocks_counts (by omega) rest
      have small : offset % blksize < blksize := Nat.mod_lt _ (by decide)
      rw [din] at grown
      refine ⟨blksize - offset % blksize, ino, ?_, ?_, by omega⟩
      · rw [Nat.add_mul]
        omega
      · rwa [Nat.sub_sub] at trace

/-! ## The content law -/

variable {n : Nat}

theorem ContentLaw.idle (quiet : node.moved = [])
    (nothing : endOf write node n len = n) (from_end : write = true → n ≤ node.din.size) :
    ContentLaw write node n len 0 node := by
  refine ⟨by rw [nothing]; rfl, ?_, ?_, ?_, fun _ => by omega, fun _ _ _ => rfl, fun _ _ => rfl,
    fun _ => ⟨rfl, rfl⟩⟩
  · simp [Moves, quiet]
  · simp
  · cases write with
    | true => exact (Nat.max_eq_left (from_end rfl)).symm
    | false => rfl

/-- What has been done is the law. -/
theorem Done.law (done : Done write node n (endOf write node n len) alen after)
    (sized : node.din.blocks = (node.din.size + (blksize - 1)) / blksize)
    (from_end : n ≤ node.din.size) : ContentLaw write node n len alen after := by
  obtain ⟨length, m, progress, dirty, rfl⟩ := done
  have size : max m.din.size (n + alen) =
      if write = true then max node.din.size (n + alen) else node.din.size := by
    rw [progress.size]
    cases write with
    | true => rfl
    | false =>
      simp only [endOf, Bool.false_eq_true, ↓reduceIte] at length ⊢
      omega
  refine ⟨length, ?_, progress.buffer, size, ?_, ?_, progress.foreign, ?_⟩
  · intro i d off
    refine (progress.moves i d off).trans (and_congr_right fun done => and_congr_left fun _ => ?_)
    unfold Holds
    split
    · rename_i old
      rw [progress.map _ old]
    · exact ⟨fun same => ⟨progress.covered i done, same⟩, fun held => held.2⟩
  · intro writing i below
    refine (progress.bytes (n + i) (.inr (by omega))).trans ?_
    rw [if_pos ⟨writing, by omega, by omega⟩, Nat.add_sub_cancel_left]
  · intro p inside outside
    have below : p / blksize < node.din.blocks := by
      rw [sized]
      simp only [blksize]
      omega
    refine (progress.bytes p (.inl below)).trans ?_
    rw [if_neg (by omega)]
  · intro reading
    obtain ⟨din, disk⟩ := progress.readonly reading
    refine ⟨?_, disk⟩
    rw [if_neg (by simp [reading])] at size
    rw [size, din]

theorem toOff_small {n : Int} (low : 0 ≤ n) (high : n < 2 ^ 63) : toOff n = n :=
  Int.bmod_eq_of_le (by omega) (by omega)

/-- A successful call is a no-op or one transfer. -/
theorem ioNolock_returns
    (inside : n + len ≤ (ndirect + blkNentry) * blksize) (from_end : write = true → n ≤ node.din.size)
    (ran : Returns (ioNolock write n len) node (alen, .ok ()) after) :
    (alen = 0 ∧ after = node ∧ endOf write node n len = n) ∨
      (n < endOf write node n len ∧ n ≤ node.din.size ∧
        Returns (ioHead write n (endOf write node n len)) node (alen, .ok ()) after) := by
  have capacity : (ndirect + blkNentry) * blksize = 4243456 := rfl
  have limit : (maxFileSize : Int) = 134217728 := rfl
  unfold ioNolock at ran
  obtain ⟨_, _, got, ran⟩ := returns_bind.mp ran
  obtain ⟨rfl, rfl⟩ := returns_gets.mp got
  obtain ⟨_, _, checked, rest⟩ := returns_bind.mp ran
  obtain ⟨_, rfl⟩ := returns_assert.mp checked
  rw [toOff_small (by omega) (by omega)] at rest
  dsimp only at rest
  split at rest
  · obtain ⟨same, _⟩ := returns_pure.mp rest
    cases same
  split at rest
  · rename_i empty
    obtain ⟨same, rfl⟩ := returns_pure.mp rest
    obtain ⟨rfl, -⟩ := Prod.mk.inj same
    refine .inl ⟨rfl, rfl, ?_⟩
    unfold endOf
    split <;> omega
  rename_i some_bytes
  rw [Int.min_eq_left (by omega)] at rest
  split at rest
  · rename_i writing
    subst writing
    exact .inr ⟨by simp only [endOf, ↓reduceIte]; omega, from_end rfl, rest⟩
  rename_i reading
  rw [Bool.not_eq_true] at reading
  subst reading
  split at rest
  · obtain ⟨same, rfl⟩ := returns_pure.mp rest
    obtain ⟨rfl, -⟩ := Prod.mk.inj same
    refine .inl ⟨rfl, rfl, ?_⟩
    simp only [endOf, Bool.false_eq_true, ↓reduceIte]
    omega
  · have reach : (min ((n : Int) + len) node.din.size).toNat = endOf false node n len := by
      simp only [endOf, Bool.false_eq_true, ↓reduceIte]
      omega
    rw [reach] at rest
    refine .inr ⟨?_, by omega, rest⟩
    simp only [endOf, Bool.false_eq_true, ↓reduceIte]
    omega

/-- On success the content law holds exactly when the whole blocks in the range,
the first one apart, are in the file already and follow it on the disk. -/
theorem io_content (offset : Int) (sound : Sound node)
    (sized : node.din.blocks = (node.din.size + (blksize - 1)) / blksize) (quiet : node.moved = [])
    (from_end : write = true → offset ≤ node.din.size)
    (inside : offset + len ≤ (ndirect + blkNentry) * blksize)
    (ran : Returns (ioNolock write offset len) node (alen, .ok ()) after) :
    ContentLaw write node offset.toNat len alen after ↔ Contiguous write node offset.toNat len := by
  have nonnegative : 0 ≤ offset := by
    by_contra negative
    unfold ioNolock at ran
    obtain ⟨_, _, got, ran⟩ := returns_bind.mp ran
    obtain ⟨rfl, rfl⟩ := returns_gets.mp got
    obtain ⟨_, _, checked, ran⟩ := returns_bind.mp ran
    obtain ⟨_, rfl⟩ := returns_assert.mp checked
    dsimp only at ran
    rw [if_pos (by simp; omega)] at ran
    cases (returns_pure.mp ran).1
  obtain ⟨n, rfl⟩ := Int.eq_ofNat_of_zero_le nonnegative
  rw [Int.toNat_natCast]
  rcases ioNolock_returns (by simp only [ndirect, blkNentry, blksize] at *; omega) (fun writing => by have := from_end writing; omega) ran with
    ⟨rfl, rfl, nothing⟩ | ⟨some_bytes, below, ran⟩
  · have law := ContentLaw.idle quiet nothing fun writing => by have := from_end writing; omega
    refine ⟨fun _ j positive short => ?_, fun _ => law⟩
    rw [nothing] at short
    have rounded : n / blksize ≤ (n + (blksize - 1)) / blksize := Nat.div_le_div_right (by omega)
    omega
  constructor
  · intro law
    unfold Contiguous
    intro j positive short
    obtain ⟨pos, ino, place, trace, grown⟩ := ioHead_counts (by omega) ran
    -- where the law wants the blocks of the run
    have wanted : ∀ j < endOf write node n len / blksize - (n + (blksize - 1)) / blksize,
        Holds node after ((n + (blksize - 1)) / blksize + j) (ino + j) := by
      intro j short
      have moved : Moves after (pos + j * blksize) (ino + j) 0 :=
        ⟨_, _, _, trace j short, Nat.le_refl _, Nat.lt_add_of_pos_right (by decide), by omega⟩
      have held := ((law.moves _ _ _).mp moved).2.1
      rwa [show n + (pos + j * blksize) = ((n + (blksize - 1)) / blksize + j) * blksize by
        rw [Nat.add_mul]; omega, Nat.mul_div_cancel _ (by decide)] at held
    have exists_all : endOf write node n len / blksize ≤ node.din.blocks := by
      have last := wanted (endOf write node n len / blksize - (n + (blksize - 1)) / blksize - 1) (by omega)
      unfold Holds at last
      split at last <;> omega
    have start := wanted 0 (by omega)
    have next := wanted j short
    unfold Holds at start next
    rw [if_pos (by omega)] at start next
    rw [Nat.add_zero, Nat.add_zero] at start
    exact ⟨by omega, by rw [← next, ← start]⟩
  · intro follow
    refine Done.law (Progress.head (.start sound quiet) ran some_bytes (fun reading => ?_) follow) sized below
    rw [sized]
    refine Nat.div_le_div_right (Nat.add_le_add_right ?_ _)
    rw [endOf, if_neg (by simp [reading])]
    omega

/-- A file of two blocks, `second` the disk block of the second one. Each block
of the disk is filled with its own number. -/
def twoBlocks (second : Nat) : Node where
  fs := {
    blocks := 64
    unusedBlocks := 32
    superDirty := false
    freemap := fun blkno => decide (32 ≤ blkno)
    disk := fun blkno _ => UInt8.ofNat blkno
    dBlocks := 64
    faults := fun _ _ _ => none }
  din := {
    size := 8192
    type := .file
    blocks := 2
    direct := fun index => if index = 0 then 10 else if index = 1 then second else 0
    indirect := 0 }
  dirty := false
  buf := fun _ => 0
  moved := []

theorem twoBlocks_sound {second : Nat} (valid : 10 < second) (used : second < 32) :
    Sound (twoBlocks second) := by
  have first : fileBlock (twoBlocks second) 0 = 10 := rfl
  have next : fileBlock (twoBlocks second) 1 = second := rfl
  refine ⟨⟨Nat.le_refl 64, show 64 < 2 ^ 20 by decide⟩, FileType.noConfusion,
    show 2 ≤ ndirect + blkNentry by decide, ?_, ?_, ?_, fun present => absurd rfl present⟩
  · intro i below
    obtain rfl | rfl : i = 0 ∨ i = 1 := by
      change i < 2 at below
      omega
    · rw [first]
      exact ⟨by decide, show 10 < 64 by decide, rfl⟩
    · rw [next]
      refine ⟨by omega, ?_, decide_eq_false (by omega)⟩
      change second < 64
      omega
  · intro i below j below' same
    change i < 2 at below
    change j < 2 at below'
    obtain rfl | rfl : i = 0 ∨ i = 1 := by omega
    · obtain rfl | rfl : j = 0 ∨ j = 1 := by omega
      · rfl
      · rw [first, next] at same
        omega
    · obtain rfl | rfl : j = 0 ∨ j = 1 := by omega
      · rw [first, next] at same
        omega
      · rfl
  · intro i above _
    change 2 ≤ i at above
    by_cases direct : i < ndirect
    · rw [fileBlock_direct direct]
      refine (if_neg (by omega)).trans (if_neg (by omega))
    · exact fileBlock_absent direct rfl

theorem adjacent_blocks_read : ∃ after,
    Returns (ioNolock false 0 8192) (twoBlocks 11) (8192, .ok ()) after ∧
    (ContentLaw false (twoBlocks 11) 0 8192 8192 after ↔ Contiguous false (twoBlocks 11) 0 8192) := by
  obtain ⟨after, ran, -⟩ : ∃ after,
      Returns (ioNolock false 0 8192) (twoBlocks 11) (8192, .ok ()) after ∧ after.buf 4096 = 11 :=
    exists_returns (fun after : Node => after.buf 4096) (by decide +kernel)
  exact ⟨after, ran,
    io_content 0 (twoBlocks_sound (by decide) (by decide)) rfl rfl (by decide) (by decide) ran⟩

/-- The second block of the file is read from the wrong place. -/
theorem scattered_blocks_misread : ∃ after, Sound (twoBlocks 20) ∧
    (twoBlocks 20).din.blocks = ((twoBlocks 20).din.size + (blksize - 1)) / blksize ∧
    Returns (ioNolock false 0 8192) (twoBlocks 20) (8192, .ok ()) after ∧
    ¬ ContentLaw false (twoBlocks 20) 0 8192 8192 after := by
  obtain ⟨after, ran, wrong⟩ : ∃ after,
      Returns (ioNolock false 0 8192) (twoBlocks 20) (8192, .ok ()) after ∧ after.buf 4096 = 11 :=
    exists_returns (fun after : Node => after.buf 4096) (by decide +kernel)
  refine ⟨after, twoBlocks_sound (by decide) (by decide), rfl, ran, fun law => ?_⟩
  have byte := law.buffer 4096
  rw [wrong, if_pos (by decide)] at byte
  exact absurd byte (by decide)

end Ucore.Sfs
