import Ucore.SfsResizeProofs
import Ucore.Runs

/-! The size of a file and its number of blocks agree whenever a call has ended,
unless the call fails between two blocks it adds or takes, the device refuses
data for a block that has just been added, or a write covers several new whole
blocks. -/
namespace Ucore.Sfs
open Call Runs

variable {sfs : SfsFs} {node m reached after : Node} {ino index more : Nat} {ret : Int}

def Sized (node : Node) : Prop := node.din.blocks = blocksFor node.din.size

/-- Every byte of the file has its block. -/
def Covered (node : Node) : Prop := blocksFor node.din.size ≤ node.din.blocks

theorem Sized.covered (sized : Sized node) : Covered node := Nat.le_of_eq sized.symm

/-! ## `sfs_truncfile` -/

theorem truncfile_returns {len : Int} {result : Unit} (sound : Sound node)
    (ran : Returns (truncfile len) node result after) :
    0 ≤ len ∧ (((node.din.size : Int) = len ∧ after = node) ∨
      ∃ m, Resized node (blocksFor len.toNat) m ∧
        after = { m with din := { m.din with size := len.toNat }, dirty := true }) := by
  unfold truncfile at ran
  obtain ⟨_, _, got, ran⟩ := returns_bind.mp ran
  obtain ⟨rfl, rfl⟩ := returns_gets.mp got
  split at ran
  · exact absurd ran (not_returns_fail _)
  rename_i valid
  simp only [Bool.or_eq_true, decide_eq_true_eq, not_or, Int.not_lt] at valid
  refine ⟨valid.1, ?_⟩
  split at ran
  · rename_i same
    obtain ⟨_, rfl⟩ := returns_assert.mp ran
    exact .inl ⟨same, rfl⟩
  · obtain ⟨_, m, resized, ran⟩ := returns_bind.mp ran
    obtain ⟨_, _, got, ran⟩ := returns_bind.mp ran
    obtain ⟨rfl, rfl⟩ := returns_gets.mp got
    obtain ⟨_, _, checked, ran⟩ := returns_bind.mp ran
    obtain ⟨_, rfl⟩ := returns_assert.mp checked
    obtain rfl := returns_modify.mp ran
    exact .inr ⟨m, resize_returns sound resized, rfl⟩

/-- When a change of the number of blocks fails, it has not begun. -/
def ResizeSafe (node : Node) (tblks : Nat) : Prop :=
  if node.din.blocks < tblks then EnlargeSafe node (tblks - node.din.blocks)
  else ReduceSafe node (node.din.blocks - tblks)

/-- A change of the size that either happens or has not begun. -/
def TruncateSafe (node : Node) (len : Int) : Prop :=
  0 ≤ len → len ≤ maxFileSize → len ≠ node.din.size →
    ResizeSafe node (blocksFor len.toNat) ∧ (node.din.blocks < blocksFor len.toNat → ClearsFree node.fs)

theorem Unmapped.refl : Unmapped node node := ⟨⟨⟨rfl, rfl⟩, rfl, rfl, fun _ _ => rfl⟩, _, rfl⟩

/-- Only the loops make a change of the size fail once it has been accepted. -/
theorem truncfile_fails_resize {len : Int} (failed : Fails (truncfile len) node ret after) :
    after = node ∨ (0 ≤ len ∧ len ≤ maxFileSize ∧ len ≠ node.din.size ∧
      Fails (resize (blocksFor len.toNat)) node ret after) := by
  unfold truncfile at failed
  rcases fails_bind.mp failed with failed | ⟨_, _, got, rest⟩
  · exact absurd failed not_fails_gets
  obtain ⟨rfl, rfl⟩ := returns_gets.mp got
  split at rest
  · exact .inl (fails_fail.mp rest).2.symm
  rename_i valid
  simp only [Bool.or_eq_true, decide_eq_true_eq, not_or, Int.not_lt] at valid
  split at rest
  · exact absurd rest not_fails_assert
  rename_i other
  rcases fails_bind.mp rest with resizing | ⟨_, _, _, rest⟩
  · exact .inr ⟨valid.1, valid.2, fun same => other same.symm, resizing⟩
  rcases fails_bind.mp rest with failed | ⟨_, _, _, rest⟩
  · exact absurd failed not_fails_gets
  rcases fails_bind.mp rest with failed | ⟨_, _, _, failed⟩
  · exact absurd failed not_fails_assert
  · exact absurd failed not_fails_modify

theorem resize_fails {tblks : Nat} (failed : Fails (resize tblks) node ret after) :
    (node.din.blocks < tblks ∧
      Fails (enlarge node.din.blocks (tblks - node.din.blocks)) node ret after) ∨
    (tblks ≤ node.din.blocks ∧ Fails (reduce (node.din.blocks - tblks)) node ret after) := by
  rcases fails_bind.mp failed with failed | ⟨_, _, got, resizing⟩
  · exact absurd failed not_fails_gets
  obtain ⟨rfl, rfl⟩ := returns_gets.mp got
  split at resizing
  · rename_i longer
    exact .inl ⟨longer, resizing⟩
  · rename_i shorter
    exact .inr ⟨Nat.not_lt.mp shorter, resizing⟩

theorem truncfile_fails {len : Int} (sound : Sound node) (safe : TruncateSafe node len)
    (failed : Fails (truncfile len) node ret after) : Unmapped node after := by
  rcases truncfile_fails_resize failed with rfl | ⟨positive, limit, other, resizing⟩
  · exact .refl
  obtain ⟨safe, clears⟩ := safe positive limit other
  unfold ResizeSafe at safe
  rcases resize_fails resizing with ⟨longer, failed⟩ | ⟨shorter, failed⟩
  · rw [if_pos longer] at safe
    exact enlarge_fails sound (clears longer) safe failed
  · rw [if_neg (Nat.not_lt.mpr shorter)] at safe
    exact reduce_fails sound safe failed

/-! ## What a transfer touches -/

/-- Only some blocks' contents differ. -/
structure Touched (blocks : Nat → Prop) (origin sfs : SfsFs) : Prop where
  super : sfs.blocks = origin.blocks ∧ sfs.dBlocks = origin.dBlocks
  freemap : sfs.freemap = origin.freemap
  unused : sfs.unusedBlocks = origin.unusedBlocks
  disk : ∀ d, ¬ blocks d → sfs.disk d = origin.disk d

section
variable {blocks : Nat → Prop} {origin : SfsFs} {blkno len offset : Nat} {check : Bool} {data : Block}

theorem Touched.refl : Touched blocks sfs sfs := ⟨⟨rfl, rfl⟩, rfl, rfl, fun _ _ => rfl⟩

theorem Touched.mounted (touched : Touched blocks origin sfs) (mounted : Mounted origin) : Mounted sfs :=
  mounted.congr touched.super.1 touched.super.2

theorem rwblockNolock_touched {data : Option Block} (mounted : Mounted origin)
    (inside : data.isSome = true → blocks blkno) :
    Keeps (Touched blocks origin) (rwblockNolock blkno data check) := by
  rw [keeps_iff]
  constructor
  · intro sfs touched block after ran
    obtain ⟨_, below, io⟩ := rwblockNolock_returns ran
    obtain ⟨faults, done⟩ := disk0Io_returns io
    rw [((touched.mounted mounted).at_block below).2] at done
    cases data with
    | none =>
      obtain ⟨_, rfl⟩ := done
      exact ⟨touched.super, touched.freemap, touched.unused, touched.disk⟩
    | some data =>
      obtain rfl := done
      refine ⟨touched.super, touched.freemap, touched.unused, fun d outside => ?_⟩
      refine (Function.update_of_ne ?_ ..).trans (touched.disk d outside)
      rintro rfl
      exact outside (inside rfl)
  · intro sfs touched ret after failed
    obtain ⟨_, faults, rfl⟩ := rwblockNolock_fails (touched.mounted mounted) failed
    exact ⟨touched.super, touched.freemap, touched.unused, touched.disk⟩

theorem wblockNolock_touched (mounted : Mounted origin) (inside : blocks blkno) :
    Keeps (Touched blocks origin) (wblockNolock blkno check data) :=
  keeps_bind (rwblockNolock_touched mounted fun _ => inside) fun _ => keeps_pure

theorem wbuf_touched (mounted : Mounted origin) (inside : blocks blkno) :
    Keeps (Touched blocks origin) (wbuf data len blkno offset) :=
  keeps_bind (keeps_assert _) fun _ =>
    keeps_bind (rwblockNolock_touched mounted fun writing => by cases writing) fun _ =>
    wblockNolock_touched mounted inside

end

/-- A transfer in either direction changes no more of the node than its blocks and the buffer. -/
structure Moving (blocks : Nat → Prop) (kind : Nat → Bool → Prop) (origin node : Node) : Prop where
  fs : Touched blocks origin.fs node.fs
  din : node.din = origin.din
  buf : node.buf = origin.buf
  accepts : Accepts kind origin.fs → Accepts kind node.fs

section
variable {blocks : Nat → Prop} {kind : Nat → Bool → Prop} {origin : Node} {pos size blkoff nblks : Nat}

theorem Moving.refl : Moving blocks kind node node := ⟨.refl, rfl, rfl, fun accepts => accepts⟩

theorem Moving.onFs {α : Type} {call : Call SfsFs α} (touched : Keeps (Touched blocks origin.fs) call)
    (accepts : Keeps (Accepts kind) call) : Keeps (Moving blocks kind origin) (onFs call) := by
  intro node moving outcome after ran
  simp only [Sfs.onFs, within, Option.map_eq_some_iff, Prod.mk.injEq, Prod.exists] at ran
  obtain ⟨_, fs, ran, _, rfl⟩ := ran
  exact ⟨touched _ moving.fs _ _ ran, moving.din, moving.buf,
    fun given => accepts _ (moving.accepts given) _ _ ran⟩

theorem record_moving : Keeps (Moving blocks kind origin) (record pos ino blkoff size) :=
  keeps_modify fun _ moving => ⟨moving.fs, moving.din, moving.buf, moving.accepts⟩

theorem bufOp_moving (mounted : Mounted origin.fs) (inside : blocks ino) :
    Keeps (Moving blocks kind origin) (bufOp true pos size ino blkoff) :=
  keeps_bind (keeps_gets _) fun _ =>
    keeps_bind (Moving.onFs (wbuf_touched mounted inside) accepts_stable.wbuf) fun _ => record_moving

theorem blockTransfer_moving (mounted : Mounted origin.fs) (inside : blocks ino) :
    Keeps (Moving blocks kind origin) (blockTransfer true pos ino) :=
  keeps_bind (keeps_gets _) fun _ =>
    keeps_bind (Moving.onFs (wblockNolock_touched mounted inside) accepts_stable.wblockNolock) fun _ =>
    record_moving

theorem blockOp_moving (mounted : Mounted origin.fs) (inside : ∀ j < nblks, blocks (ino + j)) :
    Keeps (Moving blocks kind origin) (blockOp true pos ino nblks) := by
  induction nblks generalizing pos ino with
  | zero => exact keeps_pure
  | succ nblks ih =>
    refine keeps_bind (blockTransfer_moving mounted (inside 0 (by omega))) fun _ => ih fun j below => ?_
    rw [Nat.add_assoc, Nat.add_comm 1 j]
    exact inside (j + 1) (by omega)

end

section
variable {kind : Nat → Bool → Prop} {blkno len offset pos size blkoff nblks : Nat} {data : Block}

theorem wblockNolock_accepted (mounted : Mounted sfs) (accepts : Accepts kind sfs)
    (covers : ∀ write, kind blkno write) {after : SfsFs} :
    ¬ Fails (wblockNolock blkno true data) sfs ret after := by
  intro failed
  have refused := (wblockNolock_fails mounted failed).1
  rw [accepts 0 blkno true (covers _)] at refused
  cases refused

theorem wbuf_accepted (mounted : Mounted sfs) (accepts : Accepts kind sfs)
    (covers : ∀ write, kind blkno write) {after : SfsFs} :
    ¬ Fails (wbuf data len blkno offset) sfs ret after := by
  intro failed
  rcases fails_bind.mp failed with failed | ⟨_, _, checked, rest⟩
  · exact not_fails_assert failed
  obtain ⟨_, rfl⟩ := returns_assert.mp checked
  rcases fails_bind.mp rest with failed | ⟨_, _, loaded, failed⟩
  · have refused := (rwblockNolock_fails mounted failed).1
    rw [accepts 0 blkno _ (covers _)] at refused
    cases refused
  · have later : Accepts kind _ := accepts_stable.rwblockNolock _ accepts _ _ loaded
    obtain ⟨_, _, _, faults, rfl⟩ := rblockNolock_returns loaded mounted
    exact wblockNolock_accepted (by exact mounted.congr rfl rfl) later covers failed

theorem bufOp_accepted (mounted : Mounted m.fs) (accepts : Accepts kind m.fs)
    (covers : ∀ write, kind ino write) : ¬ Fails (bufOp true pos size ino blkoff) m ret after := by
  intro failed
  rcases fails_bind.mp failed with failed | ⟨_, _, got, rest⟩
  · exact not_fails_gets failed
  obtain ⟨rfl, rfl⟩ := returns_gets.mp got
  rcases fails_bind.mp rest with failed | ⟨_, _, _, failed⟩
  · obtain ⟨fs, inner, _⟩ := fails_within.mp failed
    exact wbuf_accepted mounted accepts covers inner
  · exact not_fails_modify failed

theorem blockOp_accepted (mounted : Mounted m.fs) (accepts : Accepts kind m.fs)
    (covers : ∀ j < nblks, ∀ write, kind (ino + j) write) :
    ¬ Fails (blockOp true pos ino nblks) m ret after := by
  induction nblks generalizing m pos ino with
  | zero => exact not_fails_pure
  | succ nblks ih =>
    intro failed
    rcases fails_bind.mp failed with transfer | ⟨_, between, moved, rest⟩
    · rcases fails_bind.mp transfer with failed | ⟨_, _, got, transfer⟩
      · exact not_fails_gets failed
      obtain ⟨rfl, rfl⟩ := returns_gets.mp got
      rcases fails_bind.mp transfer with failed | ⟨_, _, _, failed⟩
      · obtain ⟨fs, inner, _⟩ := fails_within.mp failed
        exact wblockNolock_accepted mounted accepts (covers 0 (by omega)) inner
      · exact not_fails_modify failed
    · have keeps : Keeps (Moving (fun d => d = ino) kind m) (blockTransfer true pos ino) :=
        blockTransfer_moving mounted rfl
      have moving := keeps _ .refl _ _ moved
      refine ih (moving.fs.mounted mounted) (moving.accepts accepts) (fun j below write => ?_) rest
      rw [Nat.add_assoc, Nat.add_comm 1 j]
      exact covers (j + 1) (by omega) write

end

/-! ## A write in progress -/

/-- The device refuses no access to a block that is free. -/
def SparesFree (sfs : SfsFs) : Prop := Accepts (fun d _ => sfs.freemap d = true) sfs

/-- A write that began in `node` has brought the file to `total` blocks. -/
structure Writing (node : Node) (total : Nat) (m : Node) : Prop where
  sound : Sound m
  blocks : m.din.blocks = total
  size : m.din.size = node.din.size
  used : ∀ d, node.fs.freemap d = false → m.fs.freemap d = false
  kept : ∀ i < node.din.blocks, fileBlock m i = fileBlock node i
  more : node.din.blocks ≤ total
  indirect : total = node.din.blocks → m.din.indirect = node.din.indirect
  spares : Accepts (fun d _ => node.fs.freemap d = true) m.fs

variable {total offset endpos pos blkno alen : Nat} {outcome : Except Int Unit}

theorem Writing.start (sound : Sound node) (spares : SparesFree node.fs) :
    Writing node node.din.blocks node :=
  ⟨sound, rfl, rfl, fun _ used => used, fun _ _ => rfl, Nat.le_refl _, fun _ => rfl, spares⟩

theorem Writing.free_before (writing : Writing node total m) (free : m.fs.freemap d = true) :
    node.fs.freemap d = true := by
  cases before : node.fs.freemap d with
  | true => rfl
  | false =>
    rw [writing.used d before] at free
    cases free

theorem Writing.clears (writing : Writing node total m) : ClearsFree m.fs :=
  fun n d write kind => writing.spares n d write (writing.free_before kind.1)

theorem Writing.unmapped (writing : Writing node total m) (unmapped : Unmapped m after)
    (spares : Accepts (fun d _ => node.fs.freemap d = true) after.fs) : Writing node total after := by
  have sound := unmapped.sound writing.sound
  have map := unmapped.map writing.sound
  obtain ⟨kept, fs, rfl⟩ := unmapped
  refine ⟨sound, writing.blocks, writing.size, fun d used => ?_, fun i below => ?_, writing.more,
    writing.indirect, spares⟩
  · rw [kept.freemap]
    exact writing.used d used
  · rw [map, writing.kept i below]

/-- The next block of a write: one the file has, or a new one. -/
theorem Writing.load (writing : Writing node total m) (ran : Returns (bmapLoad index) m ino after) :
    ino = fileBlock after index ∧ index < after.din.blocks ∧
      ((index < total ∧ Writing node total after) ∨
        (index = total ∧ Writing node (total + 1) after ∧ node.fs.freemap ino = true)) := by
  have spares : Accepts (fun d _ => node.fs.freemap d = true) after.fs :=
    accepts_stable.bmapLoad _ writing.spares _ _ ran
  have blocks := writing.blocks
  rcases bmapLoad_returns writing.sound ran with ⟨inside, rfl, faults, rfl⟩ | ⟨rfl, grown⟩
  · refine ⟨rfl, inside, .inl ⟨blocks ▸ inside, ?_, blocks, writing.size, writing.used, writing.kept,
      writing.more, writing.indirect, spares⟩⟩
    exact writing.sound.congr rfl rfl rfl ⟨rfl, rfl⟩ rfl fun _ => rfl
  · have more := writing.more
    have total_after := grown.blocks
    refine ⟨grown.map_new.symm, by omega, .inr ⟨blocks, ⟨grown.sound writing.sound, by omega,
      grown.size.1.trans writing.size, fun d used => grown.freemap.2 d (writing.used d used),
      fun i below => ?_, by omega, by omega, spares⟩, writing.free_before grown.fresh⟩⟩
    rw [grown.map_old (by omega), writing.kept i below]

/-- Data that leaves the indirect block alone leaves the map alone. -/
theorem Writing.moving {blocks : Nat → Prop} (writing : Writing node total m)
    (moving : Moving blocks (fun d _ => node.fs.freemap d = true) m after)
    (avoids : m.din.indirect ≠ 0 → ¬ blocks m.din.indirect) : Writing node total after := by
  have map := fileBlock_congr moving.din fun present => moving.fs.disk _ (avoids present)
  refine ⟨?_, ?_, ?_, fun d used => ?_, fun i below => ?_, writing.more, fun same => ?_,
    moving.accepts writing.spares⟩
  · exact writing.sound.congr (by rw [moving.din]) (by rw [moving.din]) (by rw [moving.din])
      moving.fs.super moving.fs.freemap map
  · rw [moving.din, writing.blocks]
  · rw [moving.din, writing.size]
  · rw [moving.fs.freemap]
    exact writing.used d used
  · rw [map, writing.kept i below]
  · rw [moving.din]
    exact writing.indirect same

/-- One part of a write: it fails and leaves the number of blocks, or it brings the
file to the blocks of its data. -/
theorem Writing.part {op : Nat → Call Node Unit} (blocks : Nat → Nat → Prop)
    (writing : Writing node total m)
    (ran : Returns (attempt (bmapLoad index >>= op)) m outcome after)
    (moves : ∀ ino origin, Mounted origin.fs →
      Keeps (Moving (blocks ino) (fun d _ => node.fs.freemap d = true) origin) (op ino))
    (avoids : ∀ m, Writing node (max total (index + 1)) m → index < m.din.blocks →
      m.din.indirect ≠ 0 → ¬ blocks (fileBlock m index) m.din.indirect)
    (taken : ∀ ino m after ret, index = total → node.fs.freemap ino = true → Mounted m.fs →
      Accepts (fun d _ => node.fs.freemap d = true) m.fs → ¬ Fails (op ino) m ret after)
    (served : ∀ ino m after ret, Healthy m.fs → Mounted m.fs → ¬ Fails (op ino) m ret after) :
    (outcome = .ok () ∧ index ≤ total ∧ Writing node (max total (index + 1)) after) ∨
      ((∃ ret, outcome = .error ret) ∧ Writing node total after ∧
        ¬ (Healthy m.fs ∧ need m m.din.blocks ≤ (freeSet m.fs).card)) := by
  -- the state behind the mapping of the block
  have loaded : ∀ ino between, Returns (bmapLoad index) m ino between →
      ino = fileBlock between index ∧ index < between.din.blocks ∧ index ≤ total ∧
        Writing node (max total (index + 1)) between ∧
        (Writing node total between ∨ (index = total ∧ node.fs.freemap ino = true)) := by
    intro ino between load
    obtain ⟨same, inside, ⟨below, writing⟩ | ⟨rfl, writing, free⟩⟩ := writing.load load
    · rw [Nat.max_eq_left (by omega)]
      exact ⟨same, inside, by omega, writing, .inl writing⟩
    · rw [Nat.max_eq_right (by omega)]
      exact ⟨same, inside, Nat.le_refl _, writing, .inr ⟨rfl, free⟩⟩
  cases outcome with
  | ok done =>
    obtain ⟨ino, between, load, moved⟩ := returns_bind.mp (returns_attempt_ok.mp ran)
    obtain ⟨rfl, inside, below, writing, _⟩ := loaded ino between load
    have moving := moves _ between writing.sound.mounted _ .refl _ _ moved
    exact .inl ⟨rfl, below, writing.moving moving (avoids between writing inside)⟩
  | error ret =>
    refine .inr ⟨⟨ret, rfl⟩, ?_⟩
    rcases fails_bind.mp (returns_attempt_error.mp ran) with failed | ⟨ino, between, load, failed⟩
    · obtain ⟨unmapped, cause⟩ := bmapLoad_fails writing.sound.mounted writing.clears failed
      refine ⟨writing.unmapped unmapped (accepts_stable.bmapLoad _ writing.spares _ _ failed), ?_⟩
      rintro ⟨healthy, enough⟩
      have short := (cause healthy).2
      rw [(cause healthy).1] at short
      omega
    · obtain ⟨rfl, inside, below, writing', old | ⟨rfl, free⟩⟩ := loaded ino between load
      · have moving := moves _ between writing'.sound.mounted _ .refl _ _ failed
        refine ⟨old.moving moving (avoids between writing' inside), fun healthy => ?_⟩
        exact served _ _ _ _ (accepts_stable.bmapLoad _ healthy.1 _ _ load) writing'.sound.mounted failed
      · exact absurd failed (taken _ _ _ _ rfl free writing'.sound.mounted writing'.spares)

/-- Data for part of one block. -/
theorem Writing.buf {size blkoff : Nat} (writing : Writing node total m)
    (ran : Returns (attempt (bmapLoad index >>= fun ino => bufOp true pos size ino blkoff)) m
      outcome after) :
    (outcome = .ok () ∧ index ≤ total ∧ Writing node (max total (index + 1)) after) ∨
      ((∃ ret, outcome = .error ret) ∧ Writing node total after ∧
        ¬ (Healthy m.fs ∧ need m m.din.blocks ≤ (freeSet m.fs).card)) := by
  refine writing.part (fun ino d => d = ino) ran (fun ino origin mounted => ?_) ?_ ?_ ?_
  · exact bufOp_moving mounted rfl
  · intro m writing inside _ same
    exact writing.sound.data_ne_indirect inside same.symm
  · intro ino m after ret _ free mounted accepts
    exact bufOp_accepted mounted accepts fun _ => free
  · intro ino m after ret healthy mounted
    exact bufOp_accepted mounted healthy fun _ => trivial

/-- The whole blocks of a write that come after its first one exist, and the disk blocks
that are written for them are not the file's indirect block. -/
def Landing (node : Node) (first nblks : Nat) : Prop :=
  ∀ j, 0 < j → j < nblks →
    first + j < node.din.blocks ∧ fileBlock node first + j ≠ node.din.indirect

theorem Writing.run {nblks : Nat} (writing : Writing node total m)
    (ran : Returns (attempt (bmapLoad index >>= fun ino => blockOp true pos ino nblks)) m
      outcome after)
    (landing : Landing node index nblks) (high : total ≤ max node.din.blocks (index + 1)) :
    (outcome = .ok () ∧ index ≤ total ∧ Writing node (max total (index + 1)) after) ∨
      ((∃ ret, outcome = .error ret) ∧ Writing node total after ∧
        ¬ (Healthy m.fs ∧ need m m.din.blocks ≤ (freeSet m.fs).card)) := by
  have more := writing.more
  refine writing.part (fun ino d => ∃ j < nblks, d = ino + j) ran
    (fun ino origin mounted => ?_) ?_ ?_ ?_
  · exact blockOp_moving mounted fun j below => ⟨j, below, rfl⟩
  · rintro m writing inside _ ⟨j, below, same⟩
    by_cases first : j = 0
    · rw [first] at same
      exact writing.sound.data_ne_indirect inside same.symm
    · obtain ⟨exists_block, apart⟩ := landing j (by omega) below
      rw [writing.indirect (by omega), writing.kept _ (by omega)] at same
      exact apart same.symm
  · intro ino m after ret last free mounted accepts
    refine blockOp_accepted mounted accepts fun j below _ => ?_
    obtain rfl : j = 0 := by
      by_contra other
      have exists_block := (landing j (by omega) below).1
      omega
    exact free
  · intro ino m after ret healthy mounted
    exact blockOp_accepted mounted healthy fun _ _ _ => trivial

theorem blocksFor_max (a b : Nat) : blocksFor (max a b) = max (blocksFor a) (blocksFor b) := by
  simp only [blocksFor, blksize]
  omega

theorem blocksFor_mul (n : Nat) : blocksFor (n * blksize) = n := by
  simp only [blocksFor, blksize]
  omega

/-- The number of blocks is that of the size the file will have. -/
def Fits (node : Node) (offset alen total : Nat) : Prop :=
  total = blocksFor (max node.din.size (offset + alen))

theorem Writing.finish (writing : Writing node total m) (fits : Fits node offset pos total)
    (ran : Returns (finish offset pos outcome) m (alen, outcome') after) : Sound after ∧ Sized after := by
  obtain ⟨_, dirty, rfl⟩ := finish_returns ran
  refine ⟨writing.sound.congr rfl rfl rfl ⟨rfl, rfl⟩ rfl fun _ => rfl, ?_⟩
  change m.din.blocks = blocksFor (max m.din.size (offset + pos))
  rw [writing.blocks, writing.size]
  exact fits

theorem Writing.tail (writing : Writing node total m) (sized : Sized node)
    (ran : Returns (ioTail true offset endpos pos blkno) m (alen, outcome) after)
    (place : offset + pos = blkno * blksize) (last : endpos / blksize = blkno)
    (high : total ≤ max node.din.blocks (blkno + 1))
    (begun : Fits node offset pos total ∨ (offset + pos < endpos ∧
      Healthy m.fs ∧ need m m.din.blocks ≤ (freeSet m.fs).card)) : Sound after ∧ Sized after := by
  have low := writing.more
  have split := Nat.div_add_mod endpos blksize
  rw [last, Nat.mul_comm] at split
  unfold ioTail at ran
  by_cases whole : endpos % blksize = 0
  · rw [if_neg (by simpa using whole)] at ran
    rcases begun with fits | ⟨some_bytes, _⟩
    · exact writing.finish fits ran
    · omega
  · rw [if_pos (by simpa using whole)] at ran
    obtain ⟨outcome, _, tried, rest⟩ := returns_bind.mp ran
    rcases writing.buf tried with ⟨rfl, below, writing⟩ | ⟨⟨ret, rfl⟩, writing, cause⟩
    · refine writing.finish ?_ rest
      have small : endpos % blksize < blksize := Nat.mod_lt _ (by decide)
      have reach : blocksFor (offset + (pos + endpos % blksize)) = blkno + 1 := by
        rw [← Nat.add_assoc, place]
        simp only [blocksFor, blksize] at *
        omega
      rw [Fits, blocksFor_max, reach, ← sized]
      omega
    · rcases begun with fits | ⟨_, served⟩
      · exact writing.finish fits rest
      · exact absurd served cause

theorem Writing.blocks_part {nblks : Nat} (writing : Writing node total m) (sized : Sized node)
    (ran : Returns (ioBlocks true offset endpos pos blkno nblks) m (alen, outcome) after)
    (place : offset + pos = blkno * blksize) (last : endpos / blksize = blkno + nblks)
    (high : total ≤ max node.din.blocks (blkno + 1)) (landing : Landing node blkno nblks)
    (begun : Fits node offset pos total ∨ (offset + pos < endpos ∧
      Healthy m.fs ∧ need m m.din.blocks ≤ (freeSet m.fs).card)) : Sound after ∧ Sized after := by
  have low := writing.more
  unfold ioBlocks at ran
  by_cases some_blocks : 0 < nblks
  · rw [if_pos some_blocks] at ran
    obtain ⟨outcome, _, tried, rest⟩ := returns_bind.mp ran
    rcases writing.run tried landing high with ⟨rfl, below, writing⟩ | ⟨⟨ret, rfl⟩, writing, cause⟩
    · have place' : offset + (pos + nblks * blksize) = (blkno + nblks) * blksize := by
        rw [Nat.add_mul]
        omega
      have total_blocks : max total (blkno + 1) = max node.din.blocks (blkno + nblks) := by
        by_cases one : nblks = 1
        · omega
        · have exists_block := (landing (nblks - 1) (by omega) (by omega)).1
          omega
      refine writing.tail sized rest place' last (by omega) (.inl ?_)
      rw [Fits, blocksFor_max, place', blocksFor_mul, ← sized, total_blocks]
    · rcases begun with fits | ⟨_, served⟩
      · exact writing.finish fits rest
      · exact absurd served cause
  · rw [if_neg some_blocks] at ran
    exact writing.tail sized ran place (by omega) high begun

theorem Writing.head (writing : Writing node node.din.blocks node) (sized : Sized node)
    (ran : Returns (ioHead true offset endpos) node (alen, outcome) after) (some_bytes : offset < endpos)
    (landing : Landing node ((offset + (blksize - 1)) / blksize)
      (endpos / blksize - (offset + (blksize - 1)) / blksize))
    (begun : offset ≤ node.din.size ∨
      (Healthy node.fs ∧ need node node.din.blocks ≤ (freeSet node.fs).card)) :
    Sound after ∧ Sized after := by
  have split := Nat.div_add_mod offset blksize
  have ordered : offset / blksize ≤ endpos / blksize := Nat.div_le_div_right (by omega)
  rw [Nat.mul_comm] at split
  have begun : Fits node offset 0 node.din.blocks ∨ (offset + 0 < endpos ∧
      Healthy node.fs ∧ need node node.din.blocks ≤ (freeSet node.fs).card) := by
    rcases begun with inside | served
    · refine .inl ?_
      rw [Fits, Nat.add_zero, Nat.max_eq_left inside]
      exact sized
    · exact .inr ⟨some_bytes, served⟩
  unfold ioHead at ran
  by_cases aligned : offset % blksize = 0
  · rw [if_neg (by simpa using aligned)] at ran
    have first : (offset + (blksize - 1)) / blksize = offset / blksize := by
      simp only [blksize] at *
      omega
    rw [first] at landing
    exact writing.blocks_part sized ran (by omega) (by omega) (by omega) landing begun
  · rw [if_pos (by simpa using aligned)] at ran
    have first : (offset + (blksize - 1)) / blksize = offset / blksize + 1 := by
      simp only [blksize] at *
      omega
    rw [first] at landing
    obtain ⟨outcome, _, tried, rest⟩ := returns_bind.mp ran
    have small : offset % blksize < blksize := Nat.mod_lt _ (by decide)
    rcases writing.buf tried with ⟨rfl, below, writing⟩ | ⟨⟨ret, rfl⟩, writing, cause⟩
    · by_cases within : endpos / blksize - offset / blksize = 0
      · rw [if_pos within] at rest
        rw [if_neg (by simpa using within)] at rest
        refine writing.finish ?_ rest
        have reach : blocksFor (offset + (endpos - offset)) = offset / blksize + 1 := by
          simp only [blocksFor, blksize] at *
          omega
        rw [Fits, blocksFor_max, reach, ← sized]
      · rw [if_neg within] at rest
        rw [if_pos (by simpa using within)] at rest
        have place : offset + (blksize - offset % blksize) = (offset / blksize + 1) * blksize := by
          rw [Nat.add_mul]
          omega
        refine writing.blocks_part sized rest place (by omega) (by omega)
          (by rwa [Nat.sub_sub]) (.inl ?_)
        rw [Fits, blocksFor_max, place, blocksFor_mul, ← sized]
    · rcases begun with fits | ⟨_, served⟩
      · exact writing.finish fits rest
      · exact absurd served cause

/-! ## Reads -/

/-- A read leaves the file and the disk as they are. -/
def Looked (origin node : Node) : Prop :=
  ∃ faults buf moved, node = { origin with
    fs := { origin.fs with faults := faults }, buf := buf, moved := moved }

section
variable {origin : Node} {nblks size blkoff : Nat}

theorem Looked.sound (looked : Looked origin node) (sound : Sound origin) : Sound node := by
  obtain ⟨faults, buf, moved, rfl⟩ := looked
  exact sound.congr rfl rfl rfl ⟨rfl, rfl⟩ rfl fun _ => rfl

theorem bmapLoad_looked (sound : Sound origin) (inside : index < origin.din.blocks) :
    Keeps (Looked origin) (bmapLoad index) := by
  rw [keeps_iff]
  constructor
  · intro node looked ino after ran
    have sound := looked.sound sound
    obtain ⟨faults, buf, moved, rfl⟩ := looked
    rcases bmapLoad_returns sound ran with ⟨_, _, faults, rfl⟩ | ⟨rfl, _⟩
    · exact ⟨faults, buf, moved, rfl⟩
    · exact absurd inside (Nat.lt_irrefl _)
  · intro node looked ret after failed
    have sound := looked.sound sound
    obtain ⟨faults, buf, moved, rfl⟩ := looked
    obtain ⟨faults, rfl⟩ := bmapLoad_lookup_fails sound.mounted inside failed
    exact ⟨faults, buf, moved, rfl⟩

theorem read_looked {call : Call SfsFs Block} (sound : Sound origin)
    (reads : ∀ sfs, Mounted sfs → ∀ outcome after, call sfs = some (outcome, after) →
      ∃ faults, after = { sfs with faults := faults }) : Keeps (Looked origin) (onFs call) := by
  intro node looked outcome after ran
  have mounted := (looked.sound sound).mounted
  obtain ⟨faults, buf, moved, rfl⟩ := looked
  simp only [onFs, within, Option.map_eq_some_iff, Prod.mk.injEq, Prod.exists] at ran
  obtain ⟨_, fs, ran, _, rfl⟩ := ran
  obtain ⟨faults, rfl⟩ := reads _ mounted _ _ ran
  exact ⟨faults, buf, moved, rfl⟩

theorem toBuffer_looked (block : Block) : Keeps (Looked origin) (toBuffer pos size blkoff block) :=
  keeps_modify fun node ⟨faults, buf, moved, same⟩ => by
    subst same
    exact ⟨faults, _, moved, rfl⟩

theorem record_looked : Keeps (Looked origin) (record pos ino blkoff size) :=
  keeps_modify fun node ⟨faults, buf, moved, same⟩ => by
    subst same
    exact ⟨faults, buf, _, rfl⟩

theorem bufOp_looked (sound : Sound origin) :
    Keeps (Looked origin) (bufOp false pos size ino blkoff) := by
  refine keeps_bind (read_looked sound fun sfs mounted outcome after ran => ?_) fun block =>
    keeps_bind (toBuffer_looked block) fun _ => record_looked
  cases outcome with
  | ok block => exact (rbuf_returns ran mounted).2
  | error ret => exact (rbuf_fails mounted ran).2

theorem blockOp_looked (sound : Sound origin) :
    Keeps (Looked origin) (blockOp false pos ino nblks) := by
  induction nblks generalizing pos ino with
  | zero => exact keeps_pure
  | succ nblks ih =>
    refine keeps_bind (keeps_bind (read_looked sound fun sfs mounted outcome after ran => ?_)
      fun block => keeps_bind (toBuffer_looked block) fun _ => record_looked) fun _ => ih
    cases outcome with
    | ok block =>
      obtain ⟨_, _, _, faults, rfl⟩ := rblockNolock_returns ran mounted
      exact ⟨faults, rfl⟩
    | error ret => exact (rwblockNolock_fails mounted ran).2

theorem finish_looked (inside : offset + pos ≤ origin.din.size) :
    Keeps (Looked origin) (finish offset pos outcome) := by
  rw [keeps_iff]
  constructor
  · rintro node ⟨faults, buf, moved, rfl⟩ result after ran
    obtain ⟨_, _, got, ran⟩ := returns_bind.mp ran
    obtain ⟨rfl, rfl⟩ := returns_gets.mp got
    rw [decide_eq_false (Nat.not_lt.mpr inside)] at ran
    obtain ⟨_, _, skipped, ran⟩ := returns_bind.mp ran
    obtain ⟨_, rfl⟩ := returns_pure.mp skipped
    obtain ⟨_, rfl⟩ := returns_pure.mp ran
    exact ⟨faults, buf, moved, rfl⟩
  · intro node _ ret after failed
    rcases fails_bind.mp failed with failed | ⟨_, _, _, failed⟩
    · exact absurd failed not_fails_gets
    rcases fails_bind.mp failed with failed | ⟨_, _, _, failed⟩
    · exact absurd (fails_onlyIf.mp failed).2 not_fails_modify
    · exact absurd failed not_fails_pure

theorem ioTail_looked (sound : Sound origin) (covered : Covered origin)
    (place : offset + pos = blkno * blksize) (last : endpos / blksize = blkno)
    (inside : endpos ≤ origin.din.size) :
    Keeps (Looked origin) (ioTail false offset endpos pos blkno) := by
  have split := Nat.div_add_mod endpos blksize
  rw [last, Nat.mul_comm] at split
  unfold ioTail
  by_cases whole : endpos % blksize = 0
  · rw [if_neg (by simpa using whole)]
    exact finish_looked (by omega)
  · rw [if_pos (by simpa using whole)]
    have below : blkno < origin.din.blocks := by
      simp only [Covered, blocksFor, blksize] at *
      omega
    refine keeps_bind (keeps_attempt (keeps_bind (bmapLoad_looked sound below) fun ino =>
      bufOp_looked sound)) fun outcome => ?_
    cases outcome with
    | error ret => exact finish_looked (by omega)
    | ok done => exact finish_looked (by omega)

theorem ioBlocks_looked (sound : Sound origin) (covered : Covered origin)
    (place : offset + pos = blkno * blksize) (last : endpos / blksize = blkno + nblks)
    (inside : endpos ≤ origin.din.size) :
    Keeps (Looked origin) (ioBlocks false offset endpos pos blkno nblks) := by
  have split := Nat.div_add_mod endpos blksize
  unfold ioBlocks
  by_cases some_blocks : 0 < nblks
  · rw [if_pos some_blocks]
    have below : blkno < origin.din.blocks := by
      simp only [Covered, blocksFor, blksize] at *
      omega
    have reach : offset + pos ≤ endpos := by
      rw [place, ← split, last, Nat.mul_comm, Nat.mul_add]
      omega
    refine keeps_bind (keeps_attempt (keeps_bind (bmapLoad_looked sound below) fun ino =>
      blockOp_looked sound)) fun outcome => ?_
    cases outcome with
    | error ret => exact finish_looked (by omega)
    | ok done =>
      refine ioTail_looked sound covered ?_ last inside
      rw [Nat.add_mul]
      omega
  · rw [if_neg some_blocks]
    exact ioTail_looked sound covered place (by omega) inside

theorem ioHead_looked (sound : Sound origin) (covered : Covered origin) (some_bytes : offset < endpos)
    (inside : endpos ≤ origin.din.size) : Keeps (Looked origin) (ioHead false offset endpos) := by
  have split := Nat.div_add_mod offset blksize
  rw [Nat.mul_comm] at split
  have ordered : offset / blksize ≤ endpos / blksize := Nat.div_le_div_right (by omega)
  unfold ioHead
  by_cases aligned : offset % blksize = 0
  · rw [if_neg (by simpa using aligned)]
    exact ioBlocks_looked sound covered (by omega) (by omega) inside
  · rw [if_pos (by simpa using aligned)]
    have below : offset / blksize < origin.din.blocks := by
      simp only [Covered, blocksFor, blksize] at *
      omega
    refine keeps_bind (keeps_attempt (keeps_bind (bmapLoad_looked sound below) fun ino =>
      bufOp_looked sound)) fun outcome => ?_
    have small : offset % blksize < blksize := Nat.mod_lt _ (by decide)
    cases outcome with
    | error ret => exact finish_looked (by omega)
    | ok done =>
      by_cases within : endpos / blksize - offset / blksize = 0
      · dsimp only
        rw [if_pos within, if_neg (by simpa using within)]
        exact finish_looked (by omega)
      · dsimp only
        rw [if_neg within, if_pos (by simpa using within)]
        refine ioBlocks_looked sound covered ?_ (by omega) inside
        rw [Nat.add_mul]
        omega

end

/-! ## Calls -/

/-- Where a transfer ends that is not cut at the size of the file. -/
def reach (offset : Int) (len : Nat) : Int := min (toOff (offset + len)) maxFileSize

/-- A call that moves nothing, or a transfer. -/
theorem ioNolock_ends {write : Bool} {offset : Int} {len : Nat}
    (ran : Returns (ioNolock write offset len) node (alen, outcome) after) :
    (alen = 0 ∧ after = node ∧ (outcome = .ok () → reach offset len ≤ offset ∨
      (write = false ∧ node.din.size ≤ offset))) ∨
    (0 ≤ offset ∧ offset < reach offset len ∧
      if write then Returns (ioHead true offset.toNat (reach offset len).toNat) node (alen, outcome) after
      else offset < node.din.size ∧ Returns (ioHead false offset.toNat
        (min (reach offset len) node.din.size).toNat) node (alen, outcome) after) := by
  have limit : (maxFileSize : Int) = 134217728 := rfl
  unfold ioNolock at ran
  obtain ⟨_, _, got, ran⟩ := returns_bind.mp ran
  obtain ⟨rfl, rfl⟩ := returns_gets.mp got
  obtain ⟨_, _, checked, rest⟩ := returns_bind.mp ran
  obtain ⟨_, rfl⟩ := returns_assert.mp checked
  unfold reach
  generalize toOff (offset + len) = last at rest ⊢
  dsimp only at rest
  split at rest
  · obtain ⟨same, rfl⟩ := returns_pure.mp rest
    obtain ⟨rfl, rfl⟩ := Prod.mk.inj same
    exact .inl ⟨rfl, rfl, fun never => by cases never⟩
  rename_i valid
  simp only [Bool.or_eq_true, decide_eq_true_eq, not_or, not_lt, not_le] at valid
  split at rest
  · obtain ⟨same, rfl⟩ := returns_pure.mp rest
    exact .inl ⟨(Prod.mk.inj same).1.symm, rfl, fun _ => .inl (by omega)⟩
  rename_i some_bytes
  split at rest
  · rename_i writing
    rw [if_pos writing]
    exact .inr ⟨valid.1.1, by omega, rest⟩
  rename_i reading
  rw [if_neg reading]
  split at rest
  · obtain ⟨same, rfl⟩ := returns_pure.mp rest
    exact .inl ⟨(Prod.mk.inj same).1.symm, rfl, fun _ => .inr ⟨by simpa using reading, by omega⟩⟩
  · rename_i before_end
    exact .inr ⟨valid.1.1, by omega, by omega, rest⟩

theorem read_keeps {offset : Int} {len : Nat} (sound : Sound node) (covered : Covered node)
    (ran : Returns (ioNolock false offset len) node (alen, outcome) after) : Looked node after := by
  rcases ioNolock_ends ran with ⟨_, rfl, _⟩ | ⟨valid, some_bytes, inside, io⟩
  · exact ⟨_, _, _, rfl⟩
  · exact ioHead_looked sound covered (by omega) (by omega) node ⟨_, _, _, rfl⟩ _ _ io

/-- A write after which size and blocks agree: the device refuses no access to a block
that is free at its start, its whole blocks land, and it begins inside the file or its
first part is served. -/
def WriteSafe (node : Node) (offset : Int) (len : Nat) : Prop :=
  SparesFree node.fs ∧
    Landing node ((offset.toNat + (blksize - 1)) / blksize)
      ((reach offset len).toNat / blksize - (offset.toNat + (blksize - 1)) / blksize) ∧
    (offset ≤ node.din.size ∨ (Healthy node.fs ∧ need node node.din.blocks ≤ (freeSet node.fs).card))

theorem write_sized {offset : Int} {len : Nat} (sound : Sound node) (sized : Sized node)
    (safe : WriteSafe node offset len)
    (ran : Returns (ioNolock true offset len) node (alen, outcome) after) : Sound after ∧ Sized after := by
  obtain ⟨spares, landing, begun⟩ := safe
  rcases ioNolock_ends ran with ⟨_, rfl, _⟩ | ⟨valid, some_bytes, io⟩
  · exact ⟨sound, sized⟩
  · exact (Writing.start sound spares).head sized io (by omega) landing
      (begun.imp (fun inside => by omega) fun served => served)

theorem truncfile_keeps {len : Int} {result : Unit} (sound : Sound node) (sized : Sized node)
    (ran : Returns (truncfile len) node result after) : Sound after ∧ Sized after := by
  obtain ⟨_, ⟨_, rfl⟩ | ⟨m, resized, rfl⟩⟩ := truncfile_returns sound ran
  · exact ⟨sound, sized⟩
  · exact ⟨resized.sound.congr rfl rfl rfl ⟨rfl, rfl⟩ rfl fun _ => rfl, resized.blocks⟩

/-- The state of a file that a call must leave alone. -/
def Same (node after : Node) : Prop :=
  after.din.size = node.din.size ∧ after.din.blocks = node.din.blocks ∧
    after.fs.freemap = node.fs.freemap

theorem Unmapped.same_file (unmapped : Unmapped node after) : Same node after := by
  obtain ⟨kept, fs, rfl⟩ := unmapped
  exact ⟨rfl, rfl, kept.freemap⟩

theorem enter_sound (event : Event) (sound : Sound node) : Sound (enter event node) :=
  sound.congr rfl rfl rfl ⟨rfl, rfl⟩ rfl fun _ => rfl

theorem handle_returns {event : Event} {result : Nat × Except Int Unit}
    (ran : Returns (handle event) node result after) :
    Returns (serve event.request) (enter event node) result after := by
  obtain ⟨_, _, entered, ran⟩ := returns_bind.mp ran
  obtain rfl := returns_modify.mp entered
  exact ran

theorem not_fails_finish : ¬ Fails (finish offset pos outcome) node ret after := by
  intro failed
  rcases fails_bind.mp failed with failed | ⟨_, _, _, failed⟩
  · exact not_fails_gets failed
  rcases fails_bind.mp failed with failed | ⟨_, _, _, failed⟩
  · exact not_fails_modify (fails_onlyIf.mp failed).2
  · exact not_fails_pure failed

/-- A part that is tried, and what follows it, do not fail when what follows does not. -/
theorem not_fails_tried {α : Type} {call : Call Node Unit} {next : Except Int Unit → Call Node α}
    (rest : ∀ outcome m, ¬ Fails (next outcome) m ret after) :
    ¬ Fails (attempt call >>= next) node ret after := by
  intro failed
  rcases fails_bind.mp failed with failed | ⟨outcome, m, _, failed⟩
  · exact not_fails_attempt failed
  · exact rest outcome m failed

theorem not_fails_ioTail {write : Bool} :
    ¬ Fails (ioTail write offset endpos pos blkno) node ret after := by
  unfold ioTail
  dsimp only
  split
  · exact not_fails_tried fun outcome m => by cases outcome <;> exact not_fails_finish
  · exact not_fails_finish

theorem not_fails_ioBlocks {write : Bool} {nblks : Nat} :
    ¬ Fails (ioBlocks write offset endpos pos blkno nblks) node ret after := by
  unfold ioBlocks
  split
  · refine not_fails_tried fun outcome m => ?_
    cases outcome with
    | error ret => exact not_fails_finish
    | ok done => exact not_fails_ioTail
  · exact not_fails_ioTail

theorem not_fails_ioHead {write : Bool} : ¬ Fails (ioHead write offset endpos) node ret after := by
  unfold ioHead
  by_cases aligned : offset % blksize = 0
  · rw [if_neg (by simpa using aligned)]
    exact not_fails_ioBlocks
  · rw [if_pos (by simpa using aligned)]
    refine not_fails_tried fun outcome m => ?_
    cases outcome with
    | error ret => exact not_fails_finish
    | ok done =>
      dsimp only
      split
      · exact not_fails_finish
      · exact not_fails_ioBlocks

theorem not_fails_ioNolock {write : Bool} {offset : Int} {len : Nat} :
    ¬ Fails (ioNolock write offset len) node ret after := by
  intro failed
  rcases fails_bind.mp failed with failed | ⟨_, _, _, rest⟩
  · exact not_fails_gets failed
  rcases fails_bind.mp rest with failed | ⟨_, _, _, rest⟩
  · exact not_fails_assert failed
  dsimp only at rest
  split at rest
  · exact not_fails_pure rest
  split at rest
  · exact not_fails_pure rest
  split at rest
  · exact not_fails_ioHead rest
  split at rest
  · exact not_fails_pure rest
  · exact not_fails_ioHead rest

theorem not_fails_serve {request : Request} : ¬ Fails (serve request) node ret after := by
  intro failed
  cases request with
  | read offset len => exact not_fails_ioNolock failed
  | write offset data len => exact not_fails_ioNolock failed
  | truncate len => exact not_fails_tried (fun _ _ => not_fails_pure) failed
  | seek pos => exact not_fails_tried (fun _ _ => not_fails_pure) failed

theorem not_fails_handle {event : Event} : ¬ Fails (handle event) node ret after := by
  intro failed
  rcases fails_bind.mp failed with failed | ⟨_, m, _, failed⟩
  · exact not_fails_modify failed
  · exact not_fails_serve failed

/-- The calls of a run that keep size and blocks in step. -/
def Permits (node : Node) (event : Event) : Prop :=
  match event.request with
  | .read _ _ => True
  | .write offset _ len => WriteSafe (enter event node) offset len
  | .truncate len => TruncateSafe (enter event node) len
  | .seek pos => node.din.size < pos → pos < maxFileSize → TruncateSafe (enter event node) pos

/-- `sfs_truncfile` is called with this length. -/
def Resizes (request : Request) (len : Int) : Prop := request = .truncate len ∨ request = .seek len

/-- Size and blocks agree when the call returns, a failed change of the size has changed
nothing, and the assertions of `sfs_truncfile` hold. -/
structure Agrees (node : Node) (event : Event) : Prop where
  sized : ∀ alen outcome after, Returns (handle event) node (alen, outcome) after → Sized after
  atomic : ∀ len alen ret after, Resizes event.request len →
    Returns (handle event) node (alen, .error ret) after → Same node after
  asserted : ∀ len, Resizes event.request len →
    ((node.din.size : Int) = len → blocksFor len.toNat = node.din.blocks) ∧
      ∀ m, Returns (resize (blocksFor len.toNat)) (enter event node) () m →
        m.din.blocks = blocksFor len.toNat

/-- What `sfs_tryseek` does is nothing, a refusal or a change of the size. -/
theorem tryseek_cases {pos : Int} {outcome : Except Int Unit}
    (ran : Returns (attempt (tryseek pos)) node outcome after) :
    (after = node ∧ (outcome = .ok () → pos ≤ node.din.size)) ∨
      ((node.din.size : Int) < pos ∧ pos < maxFileSize ∧
        Returns (attempt (truncfile pos)) node outcome after) := by
  cases outcome with
  | ok done =>
    obtain ⟨_, _, got, ran⟩ := returns_bind.mp (returns_attempt_ok.mp ran)
    obtain ⟨rfl, rfl⟩ := returns_gets.mp got
    split at ran
    · exact absurd ran (not_returns_fail _)
    rename_i valid
    simp only [Bool.or_eq_true, decide_eq_true_eq, not_or, not_lt, not_le] at valid
    split at ran
    · rename_i beyond
      exact .inr ⟨beyond, valid.2, returns_attempt_ok.mpr ran⟩
    · obtain ⟨_, rfl⟩ := returns_pure.mp ran
      exact .inl ⟨rfl, fun _ => by omega⟩
  | error ret =>
    rcases fails_bind.mp (returns_attempt_error.mp ran) with failed | ⟨_, _, got, rest⟩
    · exact absurd failed not_fails_gets
    obtain ⟨rfl, rfl⟩ := returns_gets.mp got
    split at rest
    · obtain ⟨_, rfl⟩ := fails_fail.mp rest
      exact .inl ⟨rfl, fun never => by cases never⟩
    rename_i valid
    simp only [Bool.or_eq_true, decide_eq_true_eq, not_or, not_lt, not_le] at valid
    split at rest
    · rename_i beyond
      exact .inr ⟨beyond, valid.2, returns_attempt_error.mpr rest⟩
    · exact absurd rest not_fails_pure

/-- A change of the size: done, or nothing has changed. -/
theorem truncate_keeps {len : Int} {outcome : Except Int Unit} (sound : Sound node) (sized : Sized node)
    (safe : TruncateSafe node len) (ran : Returns (attempt (truncfile len)) node outcome after) :
    Sound after ∧ Sized after ∧ ((∃ ret, outcome = .error ret) → Same node after) := by
  cases outcome with
  | ok done =>
    obtain ⟨sound, sized⟩ := truncfile_keeps sound sized (returns_attempt_ok.mp ran)
    exact ⟨sound, sized, fun ⟨_, never⟩ => by cases never⟩
  | error ret =>
    have unmapped := truncfile_fails sound safe (returns_attempt_error.mp ran)
    have same := unmapped.same_file
    refine ⟨unmapped.sound sound, ?_, fun _ => same⟩
    rw [Sized, same.1, same.2.1]
    exact sized

theorem step_agrees {event : Event} (sound : Sound node) (sized : Sized node)
    (permits : Permits node event) {alen : Nat} {outcome : Except Int Unit}
    (ran : Returns (handle event) node (alen, outcome) after) :
    Sound after ∧ Sized after ∧
      ((∃ ret, outcome = .error ret) → (∃ len, Resizes event.request len) → Same node after) := by
  obtain ⟨request, answers⟩ := event
  have entered := enter_sound ⟨request, answers⟩ sound
  have ran := handle_returns ran
  cases request with
  | read offset len =>
    have looked := read_keeps entered (Sized.covered sized) ran
    refine ⟨looked.sound entered, ?_, fun _ ⟨_, never⟩ => by rcases never with never | never <;> cases never⟩
    obtain ⟨faults, buf, moved, rfl⟩ := looked
    exact sized
  | write offset data len =>
    obtain ⟨sound, sized⟩ := write_sized entered sized permits ran
    exact ⟨sound, sized, fun _ ⟨_, never⟩ => by rcases never with never | never <;> cases never⟩
  | truncate len =>
    obtain ⟨outcome', _, tried, ending⟩ := returns_bind.mp ran
    obtain ⟨same, rfl⟩ := returns_pure.mp ending
    obtain ⟨-, rfl⟩ := Prod.mk.inj same
    obtain ⟨sound, sized, atomic⟩ := truncate_keeps entered sized permits tried
    exact ⟨sound, sized, fun failed _ => atomic failed⟩
  | seek pos =>
    obtain ⟨outcome', _, tried, ending⟩ := returns_bind.mp ran
    obtain ⟨same, rfl⟩ := returns_pure.mp ending
    obtain ⟨-, rfl⟩ := Prod.mk.inj same
    rcases tryseek_cases tried with ⟨rfl, _⟩ | ⟨beyond, valid, tried⟩
    · exact ⟨entered, sized, fun _ _ => ⟨rfl, rfl, rfl⟩⟩
    · obtain ⟨sound, sized, atomic⟩ := truncate_keeps entered sized (permits beyond valid) tried
      exact ⟨sound, sized, fun failed _ => atomic failed⟩

/-- In every run of permitted calls size and blocks agree, failed changes of the size
change nothing and no assertion of `sfs_truncfile` fails. -/
theorem size_agrees {events : List Event} (sound : Sound node) (sized : Sized node)
    (along : Along step Permits node events) : Along step Agrees node events := by
  have keeps : ∀ node event, (Sound node ∧ Sized node) → Permits node event →
      Agrees node event ∧ ∀ after, step node event = some after → (Sound after ∧ Sized after) := by
    rintro node event ⟨sound, sized⟩ permits
    refine ⟨⟨?_, ?_, ?_⟩, ?_⟩
    · intro alen outcome after ran
      exact (step_agrees sound sized permits ran).2.1
    · intro len alen ret after resizes ran
      exact (step_agrees sound sized permits ran).2.2 ⟨ret, rfl⟩ ⟨len, resizes⟩
    · intro len _
      refine ⟨fun same => ?_, fun m ran => (resize_returns (enter_sound event sound) ran).blocks⟩
      rw [← same]
      exact sized.symm
    · intro after stepped
      obtain ⟨⟨outcome, after⟩, ran, rfl⟩ := Option.map_eq_some_iff.mp stepped
      cases outcome with
      | ok result =>
        obtain ⟨sound, sized, _⟩ := step_agrees sound sized permits ran
        exact ⟨sound, sized⟩
      | error ret => exact absurd ran not_fails_handle
  exact along_of_invariant keeps ⟨sound, sized⟩ along

/-- An empty file on a disk with one free block. -/
def oneFree : Node where
  fs := {
    blocks := 8
    unusedBlocks := 1
    superDirty := false
    freemap := fun blkno => decide (blkno = 5)
    disk := fun _ _ => 0
    dBlocks := 8
    faults := fun _ _ _ => none }
  din := { size := 0, type := .file, blocks := 0, direct := fun _ => 0, indirect := 0 }
  dirty := false
  buf := fun _ => 0
  moved := []

theorem oneFree_sound : Sound oneFree := by
  refine ⟨⟨Nat.le_refl 8, show 8 < 2 ^ 20 by decide⟩, FileType.noConfusion, Nat.zero_le _,
    fun i below => absurd below (Nat.not_lt_zero i), fun i below => absurd below (Nat.not_lt_zero i), ?_,
    fun present => absurd rfl present⟩
  intro i _ _
  by_cases direct : i < ndirect
  · exact fileBlock_direct direct
  · exact fileBlock_absent direct rfl

def accepting (request : Request) : Event := ⟨request, fun _ _ _ => none⟩

/-- One block more, and a write into it. -/
def growAndWrite : List Event := [accepting (.truncate 100), accepting (.write 3 (fun _ => 7) 5)]

theorem growAndWrite_agrees : Along step Agrees oneFree growAndWrite := by
  refine size_agrees oneFree_sound rfl ⟨?_, fun m stepped => ⟨?_, fun _ _ => trivial⟩⟩
  · refine fun _ _ _ => ⟨.inl (by decide), fun _ n d write _ => rfl⟩
  · refine ⟨fun n d write _ => ?_, ?_, ?_⟩
    · rfl
    · intro j positive below
      exact absurd below (by
        rw [show (reach 3 5).toNat / blksize = 0 by decide, Nat.zero_sub]
        exact Nat.not_lt_zero j)
    · have size : (step oneFree (accepting (.truncate 100))).map (fun m => m.din.size) = some 100 := by
        decide +kernel
      rw [stepped] at size
      have size : m.din.size = 100 := Option.some.inj size
      refine .inl ?_
      change (3 : Int) ≤ m.din.size
      omega

/-- With one block free the second of two new blocks fails: the size is 0, but one block
is there. -/
theorem truncate_leaves_block : ¬ Along step Agrees oneFree [accepting (.truncate 8192)] := by
  intro along
  obtain ⟨after, ran, blocks⟩ : ∃ after,
      Returns (handle (accepting (.truncate 8192))) oneFree (0, .error (-eNoMem)) after ∧
        (after.din.size, after.din.blocks) = (0, 1) :=
    exists_returns (fun after : Node => (after.din.size, after.din.blocks)) (by decide +kernel)
  obtain ⟨size, blocks⟩ := Prod.mk.inj blocks
  have sized := along.1.sized _ _ _ ran
  rw [Sized, size, blocks] at sized
  exact absurd sized (by decide)

end Ucore.Sfs
