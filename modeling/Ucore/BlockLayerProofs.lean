import Ucore.BlockLayer
import Ucore.SfsProofs

/-! Every call on the block layer has its effect at once, in whatever order the processes take
their steps, as long as all the blocks are below the 32-bit limit of byte offsets; and `disk0`
does so as long as its block numbers do not wrap into the device. -/
namespace Ucore.BlockLayer
open Interleaving
open Interleaving.Thread (Runs Avoids assert change)
open Sfs (overlay overlay_inside overlay_outside)

variable {dev : Device} {state after : Memory × Buffer} {sems : Sem → Nat} {dst src : Pointer} {n m : Nat} {bytes : Bytes}

/-! ## Copies -/

@[simp] theorem bytesOf_put (object : Object) : bytesOf (put bytes state object) object = bytes := by
  cases object <;> rfl

theorem bytesOf_put_of_ne {object other : Object} (differs : other ≠ object) :
    bytesOf (put bytes state object) other = bytesOf state other := by
  cases object <;> cases other <;> first | rfl | exact absurd rfl differs

@[simp] theorem put_put (more : Bytes) (object : Object) : put more (put bytes state object) object = put more state object := by
  cases object <;> rfl

@[simp] theorem put_bytesOf (object : Object) : put (bytesOf state object) state object = state := by
  cases object <;> rfl

@[simp] theorem size_put (object : Object) : (put bytes state object).2.size = state.2.size := by
  cases object <;> rfl

theorem sizeOf_congr (same : after.2.size = state.2.size) (object : Object) : sizeOf dev after object = sizeOf dev state object := by
  cases object <;> first | rfl | exact same

theorem overlay_zero (block data : Bytes) (place : Nat) : overlay block data 0 place = block := by
  funext i
  exact overlay_outside _ _ (by omega)

theorem overlay_congr {block data data' : Bytes} {place : Nat} (same : ∀ i < n, data i = data' i) :
    overlay block data n place = overlay block data' n place := by
  funext i
  by_cases inside : place ≤ i ∧ i < place + n
  · rw [overlay_inside _ _ inside.1 inside.2, overlay_inside _ _ inside.1 inside.2]
    exact same _ (by omega)
  · rw [overlay_outside _ _ (by omega), overlay_outside _ _ (by omega)]

/-- One byte, and the rest behind it. -/
theorem overlay_succ (block data : Bytes) (n place : Nat) :
    overlay (Function.update block place (data 0)) (fun i => data (i + 1)) n (place + 1) = overlay block data (n + 1) place := by
  funext i
  rcases Nat.lt_trichotomy i place with before | same | behind
  · rw [overlay_outside _ _ (by omega), overlay_outside _ _ (by omega), Function.update_of_ne (by omega)]
  · subst same
    rw [overlay_outside _ _ (by omega), overlay_inside _ _ (by omega) (by omega), Function.update_self, Nat.sub_self]
  · by_cases inside : i < place + (n + 1)
    · rw [overlay_inside _ _ (by omega) (by omega), overlay_inside _ _ (by omega) (by omega)]
      congr 1
      omega
    · rw [overlay_outside _ _ (by omega), overlay_outside _ _ (by omega), Function.update_of_ne (by omega)]

theorem overlay_append (block data : Bytes) (n m place : Nat) :
    overlay (overlay block data n place) (fun i => data (n + i)) m (place + n) = overlay block data (n + m) place := by
  funext i
  rcases Nat.lt_or_ge i (place + n) with first | second
  · rw [overlay_outside _ _ (.inl first)]
    rcases Nat.lt_or_ge i place with before | inside
    · rw [overlay_outside _ _ (.inl before), overlay_outside _ _ (.inl before)]
    · rw [overlay_inside _ _ inside first, overlay_inside _ _ inside (by omega)]
  · by_cases inside : i < place + n + m
    · rw [overlay_inside _ _ second inside, overlay_inside _ _ (by omega) (by omega)]
      congr 1
      omega
    · rw [overlay_outside _ _ (by omega), overlay_outside _ _ (by omega), overlay_outside _ _ (by omega)]

theorem memmove_runs (apart : dst.object ≠ src.object) (room : dst.place + n ≤ sizeOf dev state dst.object)
    (there : src.place + n ≤ sizeOf dev state src.object) :
    Runs (memmove dev dst src n) sems state () (put (overlay (bytesOf state dst.object)
      (fun i => bytesOf state src.object (src.place + i)) n dst.place) state dst.object) := by
  induction n generalizing dst src state with
  | zero =>
    rw [overlay_zero, put_bytesOf]
    exact .pure ()
  | succ n ih =>
    have inside : (inObject dev state dst && inObject dev state src) = true := by
      simp only [inObject, Bool.and_eq_true, decide_eq_true_eq]
      omega
    refine .bind (.change inside) ?_
    have rest := @ih (storeByte dst (bytesOf state src.object src.place) state) (dst.skip 1) (src.skip 1) apart
    simp only [Pointer.skip, storeByte, sizeOf_congr (size_put _), bytesOf_put, put_put, bytesOf_put_of_ne (Ne.symm apart)] at rest
    have whole : overlay (Function.update (bytesOf state dst.object) dst.place (bytesOf state src.object src.place))
        (fun i => bytesOf state src.object (src.place + 1 + i)) n (dst.place + 1) =
        overlay (bytesOf state dst.object) (fun i => bytesOf state src.object (src.place + i)) (n + 1) dst.place := by
      simp only [Nat.add_assoc, Nat.add_comm 1]
      exact overlay_succ (bytesOf state dst.object) (fun i => bytesOf state src.object (src.place + i)) n dst.place
    rw [whole] at rest
    exact rest (by omega) (by omega)

theorem memset_runs {byte : UInt8} (room : dst.place + n ≤ sizeOf dev state dst.object) :
    Runs (memset dev dst byte n) sems state () (put (overlay (bytesOf state dst.object) (fun _ => byte) n dst.place) state dst.object) := by
  induction n generalizing dst state with
  | zero =>
    rw [overlay_zero, put_bytesOf]
    exact .pure ()
  | succ n ih =>
    refine .bind (.change (decide_eq_true (by omega))) ?_
    have rest := @ih (storeByte dst byte state) (dst.skip 1)
    have whole := overlay_succ (bytesOf state dst.object) (fun _ => byte) n dst.place
    simp only [Pointer.skip, storeByte, sizeOf_congr (size_put _), bytesOf_put, put_put] at rest
    rw [whole] at rest
    exact rest (by omega)

/-- Some bytes have come from one object to another one. The buffer of the device may hold anything. -/
structure Moved (dst src : Pointer) (n : Nat) (state after : Memory × Buffer) : Prop where
  size : after.2.size = state.2.size
  target : bytesOf after dst.object = overlay (bytesOf state dst.object) (fun i => bytesOf state src.object (src.place + i)) n dst.place
  others : ∀ object, object ≠ dst.object → object ≠ .disk0Buffer → bytesOf after object = bytesOf state object

theorem Moved.refl (dst src : Pointer) (state : Memory × Buffer) : Moved dst src 0 state state :=
  ⟨rfl, (overlay_zero _ _ _).symm, fun _ _ _ => rfl⟩

theorem Moved.trans {between : Memory × Buffer} (first : Moved dst src n state between) (second : Moved (dst.skip n) (src.skip n) m between after)
    (apart : src.object ≠ dst.object) (real : src.object ≠ .disk0Buffer) : Moved dst src (n + m) state after := by
  refine ⟨second.size.trans first.size, ?_, fun object differs other => (second.others object differs other).trans (first.others object differs other)⟩
  have unchanged : bytesOf between src.object = bytesOf state src.object := first.others _ apart real
  have target := second.target
  simp only [Pointer.skip, unchanged, first.target] at target
  rw [target, ← overlay_append]
  simp only [Nat.add_assoc]

/-- Through the buffer of the device. -/
theorem Moved.through (target : dst.object ≠ .disk0Buffer) (real : src.object ≠ .disk0Buffer)
    (fits : n ≤ disk0Bufsize) (room : dst.place + n ≤ sizeOf dev state dst.object) (there : src.place + n ≤ sizeOf dev state src.object) :
    ∃ between after, Runs (memmove dev disk0Buffer src n) sems state () between ∧
      Runs (memmove dev dst disk0Buffer n) sems between () after ∧ Moved dst src n state after := by
  have inside : disk0Buffer.place + n ≤ sizeOf dev state disk0Buffer.object := by
    rw [disk0Buffer, sizeOf, Nat.zero_add]
    exact fits
  have load : Runs (memmove dev disk0Buffer src n) sems state () _ := memmove_runs (Ne.symm real) inside there
  refine ⟨_, _, load, memmove_runs target ?_ ?_, ?_, ?_, ?_⟩
  · rw [sizeOf_congr (size_put _)]
    exact room
  · rw [sizeOf_congr (size_put _)]
    exact inside
  · rw [size_put, size_put]
  · rw [bytesOf_put, bytesOf_put, bytesOf_put_of_ne (show dst.object ≠ disk0Buffer.object from target)]
    apply overlay_congr
    intro i below
    rw [overlay_inside _ _ (Nat.le_add_right _ _) (Nat.add_lt_add_left below _), Nat.add_sub_cancel_left]
  · intro object differs other
    rw [bytesOf_put_of_ne differs, bytesOf_put_of_ne (show object ≠ disk0Buffer.object from other)]

/-! ## The device -/

variable {write : Bool} {iob : Iobuf} {blkno len rounds : Nat}

theorem uint32_small (small : n < 2 ^ 32) : uint32 n = n := by
  rw [uint32]
  omega

theorem Device.dBlocks_small (dev : Device) : dev.dBlocks ≤ 2 ^ 25 := by
  have served := dev.served
  rw [maxDiskNsecs] at served
  rw [dBlocks, disk0BlkNsect, disk0Blksize, sectsize]
  omega

/-- The bytes of a block are bytes of the disk. -/
theorem Device.inside {dev : Device} (blocks : n ≤ dev.dBlocks) : n * disk0Blksize ≤ dev.sectors * sectsize := by
  rw [dBlocks, disk0BlkNsect] at blocks
  rw [disk0Blksize, sectsize] at *
  omega

def Iobuf.skip (iob : Iobuf) (n : Nat) : Iobuf :=
  { iob with base := iob.base.skip n, offset := iob.offset + n, resid := iob.resid - n }

theorem Iobuf.skip_skip (iob : Iobuf) (n m : Nat) : (iob.skip n).skip m = iob.skip (n + m) := by
  simp only [skip, Pointer.skip, Nat.sub_sub, Nat.cast_add, add_assoc]

theorem iobufMove_runs {data : Pointer} {m2b : Bool} (taken : min iob.resid len = n) (some : 0 < n)
    (moves : Runs (memmove dev (if m2b then iob.base else data) (if m2b then data else iob.base) n) sems state () after) :
    Runs (iobufMove dev iob data len m2b) sems state (if len - n = 0 then 0 else -eNoMem, iob.skip n, n) after := by
  rw [iobufMove, taken]
  simp only [some, ↓reduceIte]
  refine .bind moves (.bind ?_ (.pure _))
  exact .bind (.assert (decide_eq_true (by omega))) (.pure _)

theorem ideCheck_runs {secno nsecs : Nat} (few : nsecs ≤ maxNsecs) (some : 0 < nsecs) (inside : secno + nsecs ≤ maxDiskNsecs) :
    Runs (ideCheck secno nsecs) sems state () state := by
  refine .bind (.assert (decide_eq_true few)) (.assert ?_)
  simp only [Bool.and_eq_true, decide_eq_true_eq]
  omega

def onDisk (blkno : Nat) : Pointer := ⟨.disk, blkno * disk0Blksize⟩

/-- Where the bytes of a transfer go to, and where they come from. -/
def goal (write : Bool) (base : Pointer) (blkno : Nat) : Pointer := if write then onDisk blkno else base

def origin (write : Bool) (base : Pointer) (blkno : Nat) : Pointer := if write then base else onDisk blkno

section
variable {count : Nat} (some : 0 < count) (few : count ≤ 4) (blocks : blkno + count ≤ dev.dBlocks)
include some few blocks

theorem sectors_of_blocks : uint32 (blkno * disk0BlkNsect) * sectsize = blkno * disk0Blksize ∧
    uint32 (count * disk0BlkNsect) * sectsize = count * disk0Blksize ∧
      Runs (ideCheck (uint32 (blkno * disk0BlkNsect)) (uint32 (count * disk0BlkNsect))) sems state () state := by
  have small := dev.dBlocks_small
  have first : uint32 (blkno * disk0BlkNsect) = blkno * disk0BlkNsect := by
    rw [← Nat.cast_mul, uint32_small]
    rw [disk0BlkNsect, disk0Blksize, sectsize]
    omega
  have second : uint32 (count * disk0BlkNsect) = count * disk0BlkNsect := by
    rw [← Nat.cast_mul, uint32_small]
    rw [disk0BlkNsect, disk0Blksize, sectsize]
    omega
  rw [first, second]
  refine ⟨Nat.mul_assoc _ _ _, Nat.mul_assoc _ _ _, ideCheck_runs ?_ ?_ ?_⟩
  · rw [disk0BlkNsect, disk0Blksize, sectsize, maxNsecs]
    omega
  · exact Nat.mul_pos some (by decide)
  · rw [disk0BlkNsect, disk0Blksize, sectsize, maxDiskNsecs]
    omega

theorem disk0ReadBlks_runs (moves : Runs (memmove dev disk0Buffer (onDisk blkno) (count * disk0Blksize)) sems state () after) :
    Runs (disk0ReadBlksNolock dev blkno count) sems state () after := by
  obtain ⟨place, length, checked⟩ : _ ∧ _ ∧ Runs _ sems state () state := sectors_of_blocks some few blocks
  refine .bind checked ?_
  rw [place, length]
  exact moves

theorem disk0WriteBlks_runs (moves : Runs (memmove dev (onDisk blkno) disk0Buffer (count * disk0Blksize)) sems state () after) :
    Runs (disk0WriteBlksNolock dev blkno count) sems state () after := by
  obtain ⟨place, length, checked⟩ : _ ∧ _ ∧ Runs _ sems state () state := sectors_of_blocks some few blocks
  refine .bind checked ?_
  rw [place, length]
  exact moves

end

/-- Memory that transfers go to or come from. -/
def Plain (base : Pointer) : Prop := base.object = .sfsBuffer ∨ base.object = .buffer

theorem goal_ne_origin {base : Pointer} (plain : Plain base) : (goal write base blkno).object ≠ (origin write base blkno).object := by
  rcases plain with same | same <;> cases write <;> simp [goal, origin, onDisk, same]

theorem goal_ne_buffer {base : Pointer} (plain : Plain base) : (goal write base blkno).object ≠ .disk0Buffer := by
  rcases plain with same | same <;> cases write <;> simp [goal, onDisk, same]

theorem origin_ne_buffer {base : Pointer} (plain : Plain base) : (origin write base blkno).object ≠ .disk0Buffer := by
  rcases plain with same | same <;> cases write <;> simp [origin, onDisk, same]

/-- One round of the loop moves four blocks, or all that are left. -/
theorem disk0Loop_round (write : Bool) (rounds : Nat) (sems : Sem → Nat) (plain : Plain iob.base) (some : 0 < n) (resid : iob.resid = n * disk0Blksize)
    (room : iob.base.place + n * disk0Blksize ≤ sizeOf dev state iob.base.object) (blocks : blkno + n ≤ dev.dBlocks) :
    ∃ between, Moved (goal write iob.base blkno) (origin write iob.base blkno) (min 4 n * disk0Blksize) state between ∧
      ∀ value after, Runs (disk0Loop dev write rounds ((n - min 4 n) * disk0Blksize) (blkno + min 4 n) (iob.skip (min 4 n * disk0Blksize)))
        sems between value after → Runs (disk0Loop dev write (rounds + 1) (n * disk0Blksize) blkno iob) sems state value after := by
  obtain ⟨count, here⟩ : ∃ count, min 4 n = count := ⟨_, rfl⟩
  rw [here]
  have few : 0 < count ∧ count ≤ 4 ∧ count ≤ n := by omega
  obtain ⟨positive, few, most⟩ := few
  have length : min (n * disk0Blksize) disk0Bufsize = count * disk0Blksize := by
    rw [disk0Bufsize, disk0Blksize]
    omega
  have inside : count * disk0Blksize ≤ n * disk0Blksize := Nat.mul_le_mul_right _ most
  have on_disk : (onDisk blkno).place + count * disk0Blksize ≤ dev.sectors * sectsize := by
    rw [onDisk, ← Nat.add_mul]
    exact Device.inside (by omega)
  have in_base : iob.base.place + count * disk0Blksize ≤ sizeOf dev state iob.base.object := by omega
  have goes : ∃ middle between, Runs (memmove dev disk0Buffer (origin write iob.base blkno) (count * disk0Blksize)) sems state () middle ∧
      Runs (memmove dev (goal write iob.base blkno) disk0Buffer (count * disk0Blksize)) sems middle () between ∧
        Moved (goal write iob.base blkno) (origin write iob.base blkno) (count * disk0Blksize) state between := by
    apply Moved.through (goal_ne_buffer plain) (origin_ne_buffer plain)
    · rw [← length]
      exact Nat.min_le_right _ _
    · cases write
      · exact in_base
      · exact on_disk
    · cases write
      · exact on_disk
      · exact in_base
  obtain ⟨middle, between, load, store, moved⟩ := goes
  refine ⟨between, moved, ?_⟩
  intro value final runs
  have whole : uint32 ((count * disk0Blksize : Nat) / disk0Blksize) = count := by
    rw [uint32, disk0Blksize]
    omega
  have next : uint32 (blkno + count) = blkno + count := by
    have small := dev.dBlocks_small
    rw [← Nat.cast_add, uint32_small (by omega)]
  have some_left : ¬ n * disk0Blksize = 0 := (Nat.mul_pos some (by decide)).ne'
  have positive_bytes : 0 < count * disk0Blksize := Nat.mul_pos positive (by decide)
  have full : count * disk0Blksize % disk0Blksize = 0 := Nat.mul_mod_left _ _
  rw [Nat.sub_mul] at runs
  rw [disk0Loop, if_neg some_left]
  cases write with
  | true =>
    have step : Runs (iobufMove dev iob disk0Buffer disk0Bufsize false) sems state _ middle :=
      iobufMove_runs (by rw [resid, length]) positive_bytes load
    refine .bind step (.bind (.assert ?_) ?_)
    · simp only [full, Bool.and_eq_true, decide_eq_true_eq]
      exact ⟨⟨positive_bytes.ne', inside⟩, trivial⟩
    simp only [whole, next]
    exact .bind (disk0WriteBlks_runs positive few (by omega) store) runs
  | false =>
    have step : Runs (iobufMove dev iob disk0Buffer (count * disk0Blksize) true) sems middle _ between :=
      iobufMove_runs (by rw [resid]; exact Nat.min_eq_right inside) positive_bytes store
    simp only [Bool.false_eq_true, ↓reduceIte, Nat.min_comm disk0Bufsize, length, whole, next]
    refine .bind (disk0ReadBlks_runs positive few (by omega) load) (.bind step (.bind (.assert ?_) runs))
    simp only [full, Bool.and_eq_true, decide_eq_true_eq, and_self]

theorem Iobuf.skip_zero (iob : Iobuf) : iob.skip 0 = iob := by
  simp [skip, Pointer.skip]

theorem goal_skip (write : Bool) (base : Pointer) (blkno count : Nat) :
    goal write (base.skip (count * disk0Blksize)) (blkno + count) = (goal write base blkno).skip (count * disk0Blksize) := by
  cases write
  · rfl
  · simp [goal, onDisk, Pointer.skip, Nat.add_mul]

theorem origin_skip (write : Bool) (base : Pointer) (blkno count : Nat) :
    origin write (base.skip (count * disk0Blksize)) (blkno + count) = (origin write base blkno).skip (count * disk0Blksize) := by
  cases write
  · simp [origin, onDisk, Pointer.skip, Nat.add_mul]
  · rfl

/-- The loop moves all the bytes. -/
theorem disk0Loop_runs (write : Bool) (sems : Sem → Nat) (plain : Plain iob.base) (resid : iob.resid = n * disk0Blksize)
    (room : iob.base.place + n * disk0Blksize ≤ sizeOf dev state iob.base.object) (blocks : blkno + n ≤ dev.dBlocks) (enough : n ≤ rounds) :
    ∃ after, Runs (disk0Loop dev write rounds (n * disk0Blksize) blkno iob) sems state (iob.skip (n * disk0Blksize)) after ∧
      Moved (goal write iob.base blkno) (origin write iob.base blkno) (n * disk0Blksize) state after := by
  induction rounds generalizing n blkno iob state with
  | zero =>
    obtain rfl : n = 0 := Nat.le_zero.mp enough
    rw [Nat.zero_mul, Iobuf.skip_zero]
    exact ⟨state, .pure _, .refl _ _ _⟩
  | succ rounds ih =>
    rcases Nat.eq_zero_or_pos n with rfl | some
    · rw [Nat.zero_mul, Iobuf.skip_zero]
      exact ⟨state, .pure _, .refl _ _ _⟩
    · obtain ⟨between, moved, goes_on⟩ := disk0Loop_round write rounds sems plain some resid room blocks
      obtain ⟨count, here⟩ : ∃ count, min 4 n = count := ⟨_, rfl⟩
      rw [here] at moved goes_on
      have split : count * disk0Blksize + (n - count) * disk0Blksize = n * disk0Blksize := by
        rw [← Nat.add_mul]
        congr 1
        omega
      obtain ⟨after, rest, moved'⟩ := @ih between (n - count) (iob.skip (count * disk0Blksize)) (blkno + count) plain
        (by rw [Iobuf.skip, resid, ← Nat.sub_mul]) (by
          rw [sizeOf_congr moved.size, Iobuf.skip, Pointer.skip]
          dsimp only
          omega) (by omega) (by omega)
      refine ⟨after, ?_, ?_⟩
      · rw [Iobuf.skip_skip, split] at rest
        exact goes_on _ _ rest
      · rw [Iobuf.skip, goal_skip, origin_skip] at moved'
        have both := moved.trans moved' (goal_ne_origin plain).symm (origin_ne_buffer plain)
        rw [split] at both
        exact both

/-- A transfer of whole blocks that the device takes for blocks of its own. -/
theorem disk0Io_runs (write : Bool) (plain : Plain iob.base) (aligned : iob.offset.tmod disk0Blksize = 0) (first : uint32 (iob.offset.tdiv disk0Blksize) = blkno)
    (resid : iob.resid = n * disk0Blksize) (room : iob.base.place + n * disk0Blksize ≤ sizeOf dev state iob.base.object)
    (blocks : blkno + n ≤ dev.dBlocks) (unlocked : 0 < sems .disk0Sem) :
    ∃ after, Runs (disk0Io dev iob write) sems state (0, iob.skip (n * disk0Blksize)) after ∧
      Moved (goal write iob.base blkno) (origin write iob.base blkno) (n * disk0Blksize) state after := by
  have small := dev.dBlocks_small
  have whole : uint32 (iob.resid / disk0Blksize) = n := by
    rw [uint32, resid, disk0Blksize]
    omega
  have next : uint32 (blkno + n) = blkno + n := by
    rw [← Nat.cast_add, uint32_small (by omega)]
  have rest : iob.resid % disk0Blksize = 0 := by rw [resid, Nat.mul_mod_left]
  have rounds : iob.resid / disk0Blksize = n := by rw [resid, Nat.mul_div_cancel _ (by decide)]
  rw [disk0Io]
  simp only [aligned, first, whole, rest, rounds, ne_eq, not_true_eq_false, decide_false, Bool.or_self, Bool.false_eq_true, ↓reduceIte, next,
    Nat.not_lt.mpr blocks]
  by_cases none : n = 0
  · subst none
    rw [Nat.zero_mul, Iobuf.skip_zero]
    exact ⟨state, .pure _, .refl _ _ _⟩
  · obtain ⟨after, moves, moved⟩ := disk0Loop_runs write (Function.update sems .disk0Sem (sems .disk0Sem - 1)) plain resid room
      blocks le_rfl
    rw [if_neg none, resid]
    refine ⟨after, ?_, moved⟩
    have body : Runs (disk0Loop dev write n (n * disk0Blksize) blkno iob >>= fun iob => pure ((0 : Int), iob)) _ state _ after :=
      moves.bind (.pure _)
    have locked := Runs.enclosed unlocked body
    rw [enclosed, Thread.bind_assoc] at locked
    exact locked

/-! ## The blocks of the file system -/

variable {sfs : SfsFs} {buf : Pointer} {check : Bool}

/-- Up to 4 GiB the byte offset of a block is exact. -/
theorem sfsRwblockNolock_runs (sfs : SfsFs) (write : Bool) (plain : Plain buf) (room : buf.place + sfsBlksize ≤ sizeOf sfs.dev state buf.object)
    (block : blkno < sfs.superBlocks) (checked : blkno ≠ 0 ∨ check = false) (low : blkno < 2 ^ 20) (unlocked : 0 < sems .disk0Sem) :
    ∃ after, Runs (sfsRwblockNolock sfs buf blkno write check) sems state 0 after ∧
      Moved (goal write buf blkno) (origin write buf blkno) sfsBlksize state after := by
  have offset : ((uint32 (blkno * sfsBlksize) : Nat) : Int) = ((blkno * disk0Blksize : Nat) : Int) := by
    rw [← Nat.cast_mul, uint32_small]
    · rfl
    · rw [sfsBlksize]
      omega
  have aligned : (((blkno * disk0Blksize : Nat) : Int)).tmod disk0Blksize = 0 := by
    rw [Nat.cast_mul, Int.mul_tmod_left]
  have first : uint32 ((((blkno * disk0Blksize : Nat) : Int)).tdiv disk0Blksize) = blkno := by
    rw [Nat.cast_mul, Int.mul_tdiv_cancel _ (by decide), uint32_small (by omega)]
  have mounted := sfs.mounted
  have whole : buf.place + 1 * disk0Blksize ≤ sizeOf sfs.dev state buf.object := by
    rw [Nat.one_mul]
    exact room
  obtain ⟨after, moves, moved⟩ : ∃ after, Runs (disk0Io sfs.dev (iobufInit buf sfsBlksize (blkno * disk0Blksize : Nat)) write) sems state _ after ∧
    Moved (goal write buf blkno) (origin write buf blkno) (1 * disk0Blksize) state after :=
      disk0Io_runs write plain aligned first (Nat.one_mul _).symm whole (by omega) unlocked
  rw [Nat.one_mul] at moved
  refine ⟨after, .bind (.assert ?_) ?_, moved⟩
  · simp only [Bool.and_eq_true, Bool.or_eq_true, decide_eq_true_eq, Bool.not_eq_true']
    exact ⟨checked, block⟩
  · rw [offset]
    exact .bind moves (.pure _)

theorem rwblockLoop_runs (write : Bool) (plain : Plain buf) (room : buf.place + n * sfsBlksize ≤ sizeOf sfs.dev state buf.object)
    (blocks : blkno + n ≤ sfs.superBlocks) (used : blkno ≠ 0) (low : blkno + n ≤ 2 ^ 20) (unlocked : 0 < sems .disk0Sem) :
    ∃ after, Runs (rwblockLoop sfs write n buf blkno) sems state 0 after ∧
      Moved (goal write buf blkno) (origin write buf blkno) (n * sfsBlksize) state after := by
  induction n generalizing buf blkno state with
  | zero =>
    rw [Nat.zero_mul]
    exact ⟨state, .pure _, .refl _ _ _⟩
  | succ n ih =>
    rw [Nat.succ_mul] at room
    obtain ⟨between, first, moved⟩ := sfsRwblockNolock_runs sfs write plain (Nat.le_trans (by omega) room) (by omega) (.inl used) (by omega) unlocked
    obtain ⟨after, rest, moved'⟩ := @ih between (blkno + 1) (buf.skip sfsBlksize) plain
      (by
        rw [sizeOf_congr moved.size, Pointer.skip]
        dsimp only
        omega) (by omega) (by omega) (by omega)
    have next : uint32 (blkno + 1) = blkno + 1 := by
      rw [← Nat.cast_one, ← Nat.cast_add, uint32_small (by omega)]
    refine ⟨after, .bind first ?_, ?_⟩
    · simp only [ne_eq, not_true_eq_false, ↓reduceIte, next]
      exact rest
    · have onward := goal_skip write buf blkno 1
      have back := origin_skip write buf blkno 1
      rw [Nat.one_mul] at onward back
      rw [show sfsBlksize = disk0Blksize from rfl, onward, back] at moved'
      have both := moved.trans moved' (goal_ne_origin plain).symm (origin_ne_buffer plain)
      rw [Nat.succ_mul, Nat.add_comm]
      exact both

/-- Zeroing goes block by block out of a buffer of zeros. -/
theorem clearLoop_runs {ret : Int} (zeros : ∀ i < sfsBlksize, state.1.sfsBuffer i = 0) (blocks : blkno + n ≤ sfs.superBlocks) (used : blkno ≠ 0)
    (low : blkno + n ≤ 2 ^ 20) (unlocked : 0 < sems .disk0Sem) :
    ∃ after, Runs (clearLoop sfs n blkno ret) sems state (if n = 0 then ret else 0) after ∧ after.2 = state.2 ∧
      after.1.disk = overlay state.1.disk (fun _ => 0) (n * sfsBlksize) (blkno * sfsBlksize) := by
  induction n generalizing blkno state ret with
  | zero =>
    rw [Nat.zero_mul, overlay_zero]
    exact ⟨state, .pure _, rfl, rfl⟩
  | succ n ih =>
    obtain ⟨between, first, moved⟩ : ∃ between, Runs (sfsRwblockNolock sfs sfsBuffer blkno true true) sems state 0 between ∧
        Moved (onDisk blkno) sfsBuffer sfsBlksize state between :=
      sfsRwblockNolock_runs sfs true (.inl rfl) (Nat.zero_add _).le (by omega) (.inl used) (by omega) unlocked
    have kept : between.1.sfsBuffer = state.1.sfsBuffer := moved.others .sfsBuffer nofun nofun
    have cleared : between.1.disk = overlay state.1.disk (fun _ => 0) sfsBlksize (blkno * sfsBlksize) := by
      apply moved.target.trans
      apply overlay_congr
      intro i below
      change state.1.sfsBuffer (0 + i) = 0
      rw [Nat.zero_add]
      exact zeros i below
    obtain ⟨after, rest, buffer, disk⟩ := @ih between (blkno + 1) 0 (by rw [kept]; exact zeros) (by omega) (by omega) (by omega)
    have next : uint32 (blkno + 1) = blkno + 1 := by
      rw [← Nat.cast_one, ← Nat.cast_add, uint32_small (by omega)]
    refine ⟨after, .bind first ?_, ?_, ?_⟩
    · simp only [ne_eq, not_true_eq_false, ↓reduceIte, next]
      rw [ite_self] at rest
      exact rest
    · have size : between.2.size = state.2.size := moved.size
      have bytes : between.2.bytes = state.2.bytes := moved.others .buffer nofun nofun
      rw [buffer]
      cases same : between.2
      cases same' : state.2
      simp_all
    · rw [disk, cleared, Nat.succ_mul, Nat.succ_mul, Nat.add_comm (n * sfsBlksize)]
      exact overlay_append _ _ _ _ _

/-! ## Effects -/

/-- What the call makes of the disk. -/
def Request.written (request : Request) (disk : Bytes) : Bytes :=
  match request.call with
  | .wblock blkno nblks => overlay disk request.buffer.bytes (nblks * sfsBlksize) (blkno * sfsBlksize)
  | .wbuf len blkno offset => overlay disk request.buffer.bytes len (blkno * sfsBlksize + offset.toNat)
  | .syncSuper => overlay disk (fun i => if i < superSize then request.buffer.bytes i else 0) sfsBlksize (sfsBlknSuper * sfsBlksize)
  | .clearBlock blkno nblks _ => overlay disk (fun _ => 0) (nblks * sfsBlksize) (blkno * sfsBlksize)
  | _ => disk

/-- What it leaves in the memory of its caller. -/
def Request.readBack (request : Request) (disk : Bytes) : Bytes :=
  match request.call with
  | .rblock blkno nblks => overlay request.buffer.bytes (fun i => disk (blkno * sfsBlksize + i)) (nblks * sfsBlksize) 0
  | .rbuf len blkno offset => overlay request.buffer.bytes (fun i => disk (blkno * sfsBlksize + (offset.toNat + i))) len 0
  | _ => request.buffer.bytes

/-- What it returns. -/
def Request.returned (request : Request) : Int :=
  match request.call with
  | .clearBlock _ nblks ret => if nblks = 0 then ret else 0
  | _ => 0

/-- The blocks are blocks of the file system, and the memory that is passed has room. -/
def Request.Proper (sfs : SfsFs) (request : Request) : Prop :=
  match request.call with
  | .rblock blkno nblks | .wblock blkno nblks =>
    blkno ≠ 0 ∧ blkno + nblks ≤ sfs.superBlocks ∧ nblks * sfsBlksize ≤ request.buffer.size
  | .rbuf len blkno offset | .wbuf len blkno offset =>
    blkno ≠ 0 ∧ blkno < sfs.superBlocks ∧ 0 ≤ offset ∧ offset < sfsBlksize ∧ offset + len ≤ sfsBlksize ∧ len ≤ request.buffer.size
  | .syncSuper => 0 < sfs.superBlocks ∧ superSize ≤ request.buffer.size
  | .clearBlock blkno nblks _ => blkno ≠ 0 ∧ blkno + nblks ≤ sfs.superBlocks

/-- The blocks are in the first 4 GiB of the disk. -/
def Request.Low (request : Request) : Prop :=
  match request.call with
  | .rblock blkno nblks | .wblock blkno nblks | .clearBlock blkno nblks _ => blkno + nblks ≤ 2 ^ 20
  | .rbuf _ blkno _ | .wbuf _ blkno _ => blkno < 2 ^ 20
  | .syncSuper => True

/-- Alone the call has its effect. -/
def Serves (sfs : SfsFs) (request : Request) : Prop :=
  ∀ mem : Memory, ∃ after, Runs (serve sfs request.call) (fun _ => 1) (mem, request.buffer) request.returned after ∧
    after.1.disk = request.written mem.disk ∧ after.2 = ⟨request.buffer.size, request.readBack mem.disk⟩

/-- Between `lock_sfs_io` and `unlock_sfs_io`. -/
def held : Sem → Nat := Function.update (fun _ => 1) .ioSem 0

theorem locked {body : Task Int} {ret : Int} (runs : Runs body held state ret after) :
    Runs (do lockSfsIo; let ret ← body; unlockSfsIo; return ret) (fun _ => 1) state ret after :=
  Runs.enclosed Nat.one_pos runs

theorem buffer_eq {buffer : Buffer} {size : Nat} (same : buffer.size = size) (content : buffer.bytes = bytes) : buffer = ⟨size, bytes⟩ := by
  cases buffer
  cases same
  cases content
  rfl

theorem rblock_serves {buffer : Buffer} (proper : Request.Proper sfs ⟨.rblock blkno n, buffer⟩) (low : Request.Low ⟨.rblock blkno n, buffer⟩) :
    Serves sfs ⟨.rblock blkno n, buffer⟩ := by
  intro mem
  obtain ⟨used, blocks, room⟩ := proper
  obtain ⟨after, runs, moved⟩ : ∃ after, Runs (rwblockLoop sfs false n ⟨.buffer, 0⟩ blkno) held (mem, buffer) 0 after ∧
      Moved ⟨.buffer, 0⟩ (onDisk blkno) (n * sfsBlksize) (mem, buffer) after :=
    rwblockLoop_runs false (.inr rfl) ((Nat.zero_add _).le.trans room) blocks used low Nat.one_pos
  exact ⟨after, locked runs, moved.others .disk nofun nofun, buffer_eq moved.size moved.target⟩

theorem wblock_serves {buffer : Buffer} (proper : Request.Proper sfs ⟨.wblock blkno n, buffer⟩) (low : Request.Low ⟨.wblock blkno n, buffer⟩) :
    Serves sfs ⟨.wblock blkno n, buffer⟩ := by
  intro mem
  obtain ⟨used, blocks, room⟩ := proper
  obtain ⟨after, runs, moved⟩ : ∃ after, Runs (rwblockLoop sfs true n ⟨.buffer, 0⟩ blkno) held (mem, buffer) 0 after ∧
      Moved (onDisk blkno) ⟨.buffer, 0⟩ (n * sfsBlksize) (mem, buffer) after :=
    rwblockLoop_runs true (.inr rfl) ((Nat.zero_add _).le.trans room) blocks used low Nat.one_pos
  refine ⟨after, locked runs, moved.target.trans (overlay_congr fun i _ => ?_), buffer_eq moved.size (moved.others .buffer nofun nofun)⟩
  exact congrArg buffer.bytes (Nat.zero_add i)

theorem inBlock_of {len : Nat} {offset : Int} (low : 0 ≤ offset) (below : offset < sfsBlksize) (fits : offset + len ≤ sfsBlksize) :
    inBlock len offset = true := by
  rw [inBlock]
  simp only [Bool.and_eq_true, decide_eq_true_eq]
  rw [sfsBlksize] at *
  omega

theorem rbuf_serves {len : Nat} {offset : Int} {buffer : Buffer} (proper : Request.Proper sfs ⟨.rbuf len blkno offset, buffer⟩)
    (low : Request.Low ⟨.rbuf len blkno offset, buffer⟩) : Serves sfs ⟨.rbuf len blkno offset, buffer⟩ := by
  intro mem
  obtain ⟨used, block, positive, below, fits, room⟩ := proper
  obtain ⟨between, loads, loaded⟩ : ∃ between, Runs (sfsRwblockNolock sfs sfsBuffer blkno false true) held (mem, buffer) 0 between ∧
      Moved sfsBuffer (onDisk blkno) sfsBlksize (mem, buffer) between :=
    sfsRwblockNolock_runs sfs false (.inl rfl) (Nat.zero_add _).le block (.inl used) low Nat.one_pos
  have window : (sfsBuffer.skip offset.toNat).place + len ≤ sfsBlksize := by
    rw [sfsBuffer, Pointer.skip]
    dsimp only
    omega
  have size : between.2.size = buffer.size := loaded.size
  have copies : Runs (memmove sfs.dev ⟨.buffer, 0⟩ (sfsBuffer.skip offset.toNat) len) held between () _ :=
    memmove_runs nofun (((Nat.zero_add _).le.trans room).trans size.ge) window
  refine ⟨_, .bind (.assert (inBlock_of positive below fits)) (locked (.bind loads (.bind copies (.pure _)))),
    loaded.others .disk nofun nofun, buffer_eq size ?_⟩
  have mine : between.2.bytes = buffer.bytes := loaded.others .buffer nofun nofun
  have block_there : between.1.sfsBuffer = overlay mem.sfsBuffer (fun i => mem.disk (blkno * sfsBlksize + i)) sfsBlksize 0 := loaded.target
  change overlay between.2.bytes (fun i => between.1.sfsBuffer (0 + offset.toNat + i)) len 0 =
    overlay buffer.bytes (fun i => mem.disk (blkno * sfsBlksize + (offset.toNat + i))) len 0
  rw [mine, block_there]
  apply overlay_congr
  intro i inside
  rw [Nat.zero_add, overlay_inside _ _ (Nat.zero_le _) (by omega), Nat.sub_zero]

/-- Part of a block, put back with the rest of it. -/
theorem overlay_window {disk data : Bytes} {place offset len size : Nat} (fits : offset + len ≤ size) :
    overlay disk (overlay (fun i => disk (place + i)) data len offset) size place = overlay disk data len (place + offset) := by
  funext i
  by_cases inside : place + offset ≤ i ∧ i < place + offset + len
  · rw [overlay_inside _ _ (by omega) (by omega), overlay_inside _ _ (by omega) (by omega), overlay_inside _ _ inside.1 inside.2]
    congr 1
    omega
  · rw [overlay_outside disk data (by omega)]
    by_cases near : place ≤ i ∧ i < place + size
    · rw [overlay_inside _ _ near.1 near.2, overlay_outside _ _ (by omega)]
      congr 1
      omega
    · rw [overlay_outside _ _ (by omega)]

theorem wbuf_serves {len : Nat} {offset : Int} {buffer : Buffer} (proper : Request.Proper sfs ⟨.wbuf len blkno offset, buffer⟩)
    (low : Request.Low ⟨.wbuf len blkno offset, buffer⟩) : Serves sfs ⟨.wbuf len blkno offset, buffer⟩ := by
  intro mem
  obtain ⟨used, block, positive, below, fits, room⟩ := proper
  obtain ⟨between, loads, loaded⟩ : ∃ between, Runs (sfsRwblockNolock sfs sfsBuffer blkno false true) held (mem, buffer) 0 between ∧
      Moved sfsBuffer (onDisk blkno) sfsBlksize (mem, buffer) between :=
    sfsRwblockNolock_runs sfs false (.inl rfl) (Nat.zero_add _).le block (.inl used) low Nat.one_pos
  have window : (sfsBuffer.skip offset.toNat).place + len ≤ sfsBlksize := by
    rw [sfsBuffer, Pointer.skip]
    dsimp only
    omega
  have size : between.2.size = buffer.size := loaded.size
  have mine : between.2.bytes = buffer.bytes := loaded.others .buffer nofun nofun
  have disk : between.1.disk = mem.disk := loaded.others .disk nofun nofun
  have block_there : between.1.sfsBuffer = overlay mem.sfsBuffer (fun i => mem.disk (blkno * sfsBlksize + i)) sfsBlksize 0 := loaded.target
  have copies : Runs (memmove sfs.dev (sfsBuffer.skip offset.toNat) ⟨.buffer, 0⟩ len) held between ()
      (put (overlay between.1.sfsBuffer (fun i => between.2.bytes (0 + i)) len (0 + offset.toNat)) between .sfsBuffer) :=
    memmove_runs nofun window (((Nat.zero_add _).le.trans room).trans size.ge)
  obtain ⟨after, stores, stored⟩ : ∃ after, Runs (sfsRwblockNolock sfs sfsBuffer blkno true true) held
      (put (overlay between.1.sfsBuffer (fun i => between.2.bytes (0 + i)) len (0 + offset.toNat)) between .sfsBuffer) 0 after ∧
        Moved (onDisk blkno) sfsBuffer sfsBlksize _ after :=
    sfsRwblockNolock_runs sfs true (.inl rfl) (Nat.zero_add _).le block (.inl used) low Nat.one_pos
  refine ⟨after, .bind (.assert (inBlock_of positive below fits)) (locked (.bind loads (.bind copies stores))), ?_,
    buffer_eq (stored.size.trans size) ((stored.others .buffer nofun nofun).trans mine)⟩
  have fits' : offset.toNat + len ≤ sfsBlksize := by omega
  have written : after.1.disk = overlay between.1.disk
      (fun i => overlay between.1.sfsBuffer (fun i => between.2.bytes (0 + i)) len (0 + offset.toNat) (0 + i)) sfsBlksize (blkno * sfsBlksize) :=
    stored.target
  rw [written, disk, mine, block_there]
  apply Eq.trans _ (overlay_window fits')
  apply overlay_congr
  intro i inside
  simp only [Nat.zero_add]
  by_cases new : offset.toNat ≤ i ∧ i < offset.toNat + len
  · rw [overlay_inside _ _ new.1 new.2, overlay_inside _ _ new.1 new.2]
  · rw [overlay_outside _ _ (by omega), overlay_inside _ _ (Nat.zero_le _) (by omega), Nat.sub_zero, overlay_outside _ _ (by omega)]

theorem syncSuper_serves {buffer : Buffer} (proper : Request.Proper sfs ⟨.syncSuper, buffer⟩) : Serves sfs ⟨.syncSuper, buffer⟩ := by
  intro mem
  obtain ⟨some, room⟩ := proper
  have clears : Runs (memset sfs.dev sfsBuffer 0 sfsBlksize) held (mem, buffer) ()
      (put (overlay mem.sfsBuffer (fun _ => 0) sfsBlksize 0) (mem, buffer) .sfsBuffer) := memset_runs (Nat.zero_add _).le
  have copies : Runs (memmove sfs.dev sfsBuffer ⟨.buffer, 0⟩ superSize) held
      (put (overlay mem.sfsBuffer (fun _ => 0) sfsBlksize 0) (mem, buffer) .sfsBuffer) () _ :=
    memmove_runs nofun ((Nat.zero_add _).le.trans (show superSize ≤ sfsBlksize by decide)) ((Nat.zero_add _).le.trans room)
  obtain ⟨after, stores, stored⟩ : ∃ after, Runs (sfsRwblockNolock sfs sfsBuffer sfsBlknSuper true false) held _ 0 after ∧
        Moved (onDisk sfsBlknSuper) sfsBuffer sfsBlksize _ after :=
    sfsRwblockNolock_runs sfs true (.inl rfl) (Nat.zero_add _).le some (.inr rfl) (by decide) Nat.one_pos
  refine ⟨after, locked (.bind clears (.bind copies stores)), ?_, buffer_eq stored.size (stored.others .buffer nofun nofun)⟩
  have written : after.1.disk = overlay mem.disk (fun i => overlay (overlay mem.sfsBuffer (fun _ => 0) sfsBlksize 0)
      (fun i => buffer.bytes (0 + i)) superSize 0 (0 + i)) sfsBlksize (sfsBlknSuper * sfsBlksize) := stored.target
  rw [written]
  change _ = overlay mem.disk (fun i => if i < superSize then buffer.bytes i else 0) sfsBlksize (sfsBlknSuper * sfsBlksize)
  apply overlay_congr
  intro i inside
  rw [Nat.zero_add]
  by_cases first : i < superSize
  · rw [overlay_inside _ _ (Nat.zero_le _) (by omega), if_pos first, Nat.zero_add, Nat.sub_zero]
  · rw [overlay_outside _ _ (by omega), if_neg first, overlay_inside _ _ (Nat.zero_le _) (by omega)]

theorem clearBlock_serves {ret : Int} {buffer : Buffer} (proper : Request.Proper sfs ⟨.clearBlock blkno n ret, buffer⟩)
    (low : Request.Low ⟨.clearBlock blkno n ret, buffer⟩) : Serves sfs ⟨.clearBlock blkno n ret, buffer⟩ := by
  intro mem
  obtain ⟨used, blocks⟩ := proper
  have clears : Runs (memset sfs.dev sfsBuffer 0 sfsBlksize) held (mem, buffer) ()
      (put (overlay mem.sfsBuffer (fun _ => 0) sfsBlksize 0) (mem, buffer) .sfsBuffer) := memset_runs (Nat.zero_add _).le
  have zeros : ∀ i < sfsBlksize, (put (overlay mem.sfsBuffer (fun _ => 0) sfsBlksize 0) (mem, buffer) .sfsBuffer).1.sfsBuffer i = 0 := by
    intro i below
    change overlay mem.sfsBuffer (fun _ => 0) sfsBlksize 0 i = 0
    rw [overlay_inside _ _ (Nat.zero_le _) (by omega)]
  obtain ⟨after, zeroes, same, disk⟩ : ∃ after, Runs (clearLoop sfs n blkno ret) held _ _ after ∧ _ :=
    clearLoop_runs zeros blocks used low Nat.one_pos
  exact ⟨after, locked (.bind clears zeroes), disk, same⟩

theorem serves (request : Request) (proper : request.Proper sfs) (low : request.Low) : Serves sfs request := by
  obtain ⟨call, buffer⟩ := request
  cases call with
  | rblock blkno nblks => exact rblock_serves proper low
  | wblock blkno nblks => exact wblock_serves proper low
  | rbuf len blkno offset => exact rbuf_serves proper low
  | wbuf len blkno offset => exact wbuf_serves proper low
  | syncSuper => exact syncSuper_serves proper
  | clearBlock blkno nblks ret => exact clearBlock_serves proper low

/-! ## Interleavings -/

section
variable {sem : Sem}

theorem memmove_avoids (dst src : Pointer) (n : Nat) : Avoids sem (memmove dev dst src n) := by
  induction n generalizing dst src with
  | zero => exact .ret ()
  | succ n ih => exact .bind (.change _ _) fun _ => ih _ _

theorem memset_avoids (dst : Pointer) (byte : UInt8) (n : Nat) : Avoids sem (memset dev dst byte n) := by
  induction n generalizing dst with
  | zero => exact .ret ()
  | succ n ih => exact .bind (.change _ _) fun _ => ih _

theorem iobufMove_avoids (iob : Iobuf) (data : Pointer) (len : Nat) (m2b : Bool) : Avoids sem (iobufMove dev iob data len m2b) := by
  rw [iobufMove]
  apply Avoids.ite
  · exact .bind (memmove_avoids _ _ _) fun _ => .bind (.bind (.assert _) fun _ => .ret _) fun _ => .ret _
  · exact .ret _

theorem ideCheck_avoids (secno nsecs : Nat) : Avoids sem (ideCheck secno nsecs) := .bind (.assert _) fun _ => .assert _

theorem disk0Loop_avoids (write : Bool) (rounds resid blkno : Nat) (iob : Iobuf) : Avoids sem (disk0Loop dev write rounds resid blkno iob) := by
  induction rounds generalizing resid blkno iob with
  | zero =>
    rw [disk0Loop]
    apply Avoids.ite
    · exact .ret _
    · exact .stop
  | succ rounds ih =>
    rw [disk0Loop]
    apply Avoids.ite (.ret _)
    apply Avoids.ite
    · exact .bind (iobufMove_avoids _ _ _ _) fun _ => .bind (.assert _) fun _ =>
        .bind (.bind (ideCheck_avoids _ _) fun _ => memmove_avoids _ _ _) fun _ => ih _ _ _
    · exact .bind (.bind (ideCheck_avoids _ _) fun _ => memmove_avoids _ _ _) fun _ =>
        .bind (iobufMove_avoids _ _ _ _) fun _ => .bind (.assert _) fun _ => ih _ _ _

theorem disk0Io_avoids (iob : Iobuf) (write : Bool) : Avoids .ioSem (disk0Io dev iob write) := by
  rw [disk0Io]
  apply Avoids.ite (.ret _)
  apply Avoids.ite (.ret _)
  apply Avoids.ite (.ret _)
  have other : Sem.disk0Sem ≠ .ioSem := by decide
  exact .bind (.down other (.ret ())) fun _ => .bind (disk0Loop_avoids _ _ _ _ _) fun _ => .bind (.up other (.ret ())) fun _ => .ret _

theorem sfsRwblockNolock_avoids (buf : Pointer) (blkno : Nat) (write check : Bool) :
    Avoids .ioSem (sfsRwblockNolock sfs buf blkno write check) :=
  .bind (.assert _) fun _ => .bind (disk0Io_avoids _ _) fun _ => .ret _

theorem rwblockLoop_avoids (write : Bool) (n : Nat) (buf : Pointer) (blkno : Nat) : Avoids .ioSem (rwblockLoop sfs write n buf blkno) := by
  induction n generalizing buf blkno with
  | zero => exact .ret _
  | succ n ih => exact .bind (sfsRwblockNolock_avoids _ _ _ _) fun _ => .ite (.ret _) (ih _ _)

theorem clearLoop_avoids (n blkno : Nat) (ret : Int) : Avoids .ioSem (clearLoop sfs n blkno ret) := by
  induction n generalizing blkno ret with
  | zero => exact .ret _
  | succ n ih => exact .bind (sfsRwblockNolock_avoids _ _ _ _) fun _ => .ite (.ret _) (ih _ _)

end

variable {ι α γ : Type} [DecidableEq ι]

/-- In every run of calls that are allowed no call stops and they do not all wait for each other;
they have returned what they return one after another; and as long as no call is going on, the
disk is what the last one has made of it. -/
def Exact (ι : Type) [DecidableEq ι] (system : System Sem Memory Buffer α γ) (Allowed : γ → Prop)
    (Effect : Bytes → Event Buffer α γ → Bytes → Prop) : Prop :=
  ∀ (start s : State ι Sem Memory Buffer α γ) (events : List (Event Buffer α γ)), start.Idle → start.sems = (fun _ => 1) →
    Run system Allowed start events s → s.Live ∧ ∃ disk, Serial Effect start.shared.disk events disk ∧ (s.Idle → s.shared.disk = disk)

/-- All the semaphores are up. -/
def Quiet (_ : Memory) (sems : Sem → Nat) : Prop := sems = fun _ => 1

theorem exact_of_exclusive {system : System Sem Memory Buffer α γ} {Allowed : γ → Prop} {Effect : Bytes → Event Buffer α γ → Bytes → Prop}
    {sem : Sem} (exclusive : Exclusive system Allowed sem Quiet Memory.disk Effect) : Exact ι system Allowed Effect := by
  intro start s events idle up run
  obtain ⟨shared, sems, between, quiet, serial⟩ := exclusive.serial idle up run
  refine ⟨exclusive.live between quiet, shared.disk, serial, ?_⟩
  intro ended
  rw [between.idle ended]

/-- What a call on the file system does. -/
def SfsEffect (disk : Bytes) (event : Event Buffer Int Request) (disk' : Bytes) : Prop :=
  disk' = event.call.written disk ∧ event.own = ⟨event.call.buffer.size, event.call.readBack disk⟩ ∧ event.value = event.call.returned

theorem sfs_encloses (request : Request) (proper : request.Proper sfs) :
    ∃ body, (sfsSystem sfs).program request = .down .ioSem (enclosed .ioSem body) ∧ body.Avoids .ioSem := by
  obtain ⟨call, buffer⟩ := request
  cases call with
  | rblock blkno nblks => exact ⟨rwblockLoop sfs false nblks ⟨.buffer, 0⟩ blkno, rfl, rwblockLoop_avoids _ _ _ _⟩
  | wblock blkno nblks => exact ⟨rwblockLoop sfs true nblks ⟨.buffer, 0⟩ blkno, rfl, rwblockLoop_avoids _ _ _ _⟩
  | rbuf len blkno offset =>
    obtain ⟨-, -, positive, below, fits, -⟩ := proper
    refine ⟨rbufNolock sfs ⟨.buffer, 0⟩ len blkno offset, ?_, ?_⟩
    · change sfsRbuf sfs ⟨.buffer, 0⟩ len blkno offset = _
      rw [sfsRbuf, inBlock_of positive below fits]
      rfl
    · exact .bind (sfsRwblockNolock_avoids _ _ _ _) fun _ => .ite (.bind (memmove_avoids _ _ _) fun _ => .ret _) (.ret _)
  | wbuf len blkno offset =>
    obtain ⟨-, -, positive, below, fits, -⟩ := proper
    refine ⟨wbufNolock sfs ⟨.buffer, 0⟩ len blkno offset, ?_, ?_⟩
    · change sfsWbuf sfs ⟨.buffer, 0⟩ len blkno offset = _
      rw [sfsWbuf, inBlock_of positive below fits]
      rfl
    · exact .bind (sfsRwblockNolock_avoids _ _ _ _) fun _ =>
        .ite (.bind (memmove_avoids _ _ _) fun _ => sfsRwblockNolock_avoids _ _ _ _) (.ret _)
  | syncSuper =>
    exact ⟨syncSuperNolock sfs ⟨.buffer, 0⟩, rfl, .bind (memset_avoids _ _ _) fun _ => .bind (memmove_avoids _ _ _) fun _ =>
      sfsRwblockNolock_avoids _ _ _ _⟩
  | clearBlock blkno nblks ret =>
    exact ⟨clearNolock sfs blkno nblks ret, rfl, .bind (memset_avoids _ _ _) fun _ => clearLoop_avoids _ _ _⟩

theorem sfs_exclusive (sfs : SfsFs) :
    Exclusive (sfsSystem sfs) (fun request => request.Proper sfs ∧ request.Low) .ioSem Quiet Memory.disk SfsEffect where
  free _ _ up := congrFun up .ioSem
  encloses request allowed := .inr (sfs_encloses request allowed.1)
  effective request mem sems allowed up := by
    obtain ⟨after, runs, disk, own⟩ := serves request allowed.1 allowed.2 mem
    rw [Quiet] at up
    rw [up]
    exact ⟨request.returned, after.1, after.2, _, runs, rfl, disk, own, rfl⟩

/-! ## Transfers of the device -/

/-- Whole blocks. -/
def Transfer.Aligned (transfer : Transfer) : Prop := (disk0Blksize : Int) ∣ transfer.offset ∧ disk0Blksize ∣ transfer.resid

/-- The transfer ends inside of the device. -/
def Transfer.Inside (dev : Device) (transfer : Transfer) : Prop :=
  0 ≤ transfer.offset ∧ transfer.offset + transfer.resid ≤ dev.dBlocks * disk0Blksize

/-- The memory that is passed has room. -/
def Transfer.Proper (transfer : Transfer) : Prop := transfer.resid ≤ transfer.buffer.size

/-- The block numbers, taken as 32-bit numbers, are not those of the device unless the transfer is inside of it. -/
def Transfer.Unwrapped (dev : Device) (transfer : Transfer) : Prop :=
  transfer.Aligned → uint32 (uint32 (transfer.offset.tdiv disk0Blksize) + uint32 (transfer.resid / disk0Blksize)) ≤ dev.dBlocks →
    transfer.Inside dev

/-- What a transfer that is refused or accepted does. -/
def Disk0Effect (dev : Device) (disk : Bytes) (event : Event Buffer (Int × Iobuf) Transfer) (disk' : Bytes) : Prop :=
  let transfer := event.call
  (transfer.Aligned ∧ transfer.Inside dev →
    event.value = (0, transfer.iobuf.skip transfer.resid) ∧
      if transfer.write then disk' = overlay disk transfer.buffer.bytes transfer.resid transfer.offset.toNat ∧ event.own = transfer.buffer
      else disk' = disk ∧
        event.own = ⟨transfer.buffer.size, overlay transfer.buffer.bytes (fun i => disk (transfer.offset.toNat + i)) transfer.resid 0⟩) ∧
  (¬ (transfer.Aligned ∧ transfer.Inside dev) → event.value = (-eInval, transfer.iobuf) ∧ disk' = disk ∧ event.own = transfer.buffer)

variable {transfer : Transfer}

/-- A transfer that is not taken by the device returns at once. -/
theorem disk0_refuses (unwrapped : transfer.Unwrapped dev) (outside : ¬ (transfer.Aligned ∧ transfer.Inside dev)) :
    (disk0System dev).program transfer = .ret (-eInval, transfer.iobuf) := by
  change disk0Io dev transfer.iobuf transfer.write = _
  rw [disk0Io]
  by_cases aligned : transfer.Aligned
  · have wrapped : dev.dBlocks < uint32 (uint32 (transfer.offset.tdiv disk0Blksize) + uint32 (transfer.resid / disk0Blksize)) := by
      by_contra low
      exact outside ⟨aligned, unwrapped aligned (Nat.le_of_not_lt low)⟩
    have first : transfer.iobuf.offset.tmod disk0Blksize = 0 := Int.tmod_eq_zero_of_dvd aligned.1
    have second : transfer.iobuf.resid % disk0Blksize = 0 := Nat.mod_eq_zero_of_dvd aligned.2
    simp only [first, second, ne_eq, not_true_eq_false, decide_false, Bool.or_self, Bool.false_eq_true, ↓reduceIte]
    exact if_pos wrapped
  · apply if_pos
    simp only [ne_eq, Bool.or_eq_true, decide_eq_true_eq]
    by_contra whole
    push Not at whole
    exact aligned ⟨Int.dvd_of_tmod_eq_zero whole.1, Nat.dvd_of_mod_eq_zero whole.2⟩

/-- A transfer of blocks of the device, alone. -/
theorem disk0_moves (aligned : transfer.Aligned) (inside : transfer.Inside dev) (proper : transfer.Proper) (mem : Memory) :
    ∃ after, Runs ((disk0System dev).program transfer) (fun _ => 1) (mem, transfer.buffer) (0, transfer.iobuf.skip transfer.resid) after ∧
      Disk0Effect dev mem.disk ⟨transfer, after.2, (0, transfer.iobuf.skip transfer.resid)⟩ after.1.disk := by
  obtain ⟨offset, resid, write, buffer⟩ := transfer
  obtain ⟨⟨k, place⟩, n, length⟩ := aligned
  obtain ⟨low, high⟩ := inside
  dsimp only at place length low high
  obtain ⟨blkno, rfl⟩ : ∃ blkno : Nat, k = blkno := ⟨k.toNat, by rw [disk0Blksize] at place; omega⟩
  rw [Int.mul_comm] at place
  rw [Nat.mul_comm] at length
  subst place length
  have small := dev.dBlocks_small
  have blocks : blkno + n ≤ dev.dBlocks := by
    rw [disk0Blksize] at high
    omega
  have first : uint32 (((blkno : Int) * disk0Blksize).tdiv disk0Blksize) = blkno := by
    rw [Int.mul_tdiv_cancel _ (by decide), uint32_small (by omega)]
  have room : 0 + n * disk0Blksize ≤ sizeOf dev (mem, buffer) .buffer := (Nat.zero_add _).le.trans proper
  obtain ⟨after, runs, moved⟩ : ∃ after, Runs (disk0Io dev (iobufInit ⟨.buffer, 0⟩ (n * disk0Blksize) (blkno * disk0Blksize)) write) (fun _ => 1)
      (mem, buffer) _ after ∧ Moved (goal write ⟨.buffer, 0⟩ blkno) (origin write ⟨.buffer, 0⟩ blkno) (n * disk0Blksize) (mem, buffer) after :=
    disk0Io_runs write (.inr rfl) (Int.mul_tmod_left _ _) first rfl room blocks Nat.one_pos
  have position : ((blkno : Int) * disk0Blksize).toNat = blkno * disk0Blksize := by
    rw [← Nat.cast_mul, Int.toNat_natCast]
  refine ⟨after, runs, fun _ => ⟨rfl, ?_⟩, fun outside => absurd ⟨⟨Dvd.intro_left _ rfl, Dvd.intro_left _ rfl⟩, low, high⟩ outside⟩
  dsimp only
  rw [position]
  cases write with
  | true =>
    refine ⟨moved.target.trans (overlay_congr fun i _ => ?_), buffer_eq moved.size (moved.others .buffer nofun nofun)⟩
    exact congrArg buffer.bytes (Nat.zero_add i)
  | false => exact ⟨moved.others .disk nofun nofun, buffer_eq moved.size moved.target⟩

/-- Apart from transfers that return at once, the work is done between `lock_disk0` and `unlock_disk0`. -/
theorem disk0_encloses (iob : Iobuf) (write : Bool) : (∃ value, disk0Io dev iob write = .ret value) ∨
    ∃ body, disk0Io dev iob write = .down .disk0Sem (enclosed .disk0Sem body) ∧ body.Avoids .disk0Sem := by
  rw [disk0Io]
  split
  · exact .inl ⟨_, rfl⟩
  split
  · exact .inl ⟨_, rfl⟩
  split
  · exact .inl ⟨_, rfl⟩
  · refine .inr ⟨disk0Loop dev write (iob.resid / disk0Blksize) iob.resid (uint32 (iob.offset.tdiv disk0Blksize)) iob >>=
      fun iob => pure (0, iob), ?_, .bind (disk0Loop_avoids _ _ _ _ _) fun _ => .ret _⟩
    rw [enclosed, Thread.bind_assoc]
    rfl

theorem disk0_exclusive (dev : Device) :
    Exclusive (disk0System dev) (fun transfer => transfer.Proper ∧ transfer.Unwrapped dev) .disk0Sem Quiet Memory.disk (Disk0Effect dev) where
  free _ _ up := congrFun up .disk0Sem
  encloses transfer _ := disk0_encloses transfer.iobuf transfer.write
  effective transfer mem sems allowed up := by
    rw [Quiet] at up
    rw [up]
    by_cases taken : transfer.Aligned ∧ transfer.Inside dev
    · obtain ⟨after, runs, effect⟩ := disk0_moves taken.1 taken.2 allowed.1 mem
      exact ⟨_, after.1, after.2, _, runs, rfl, effect⟩
    · rw [disk0_refuses allowed.2 taken]
      exact ⟨_, mem, transfer.buffer, _, rfl, rfl, fun taken' => absurd taken' taken, fun _ => ⟨rfl, rfl, rfl⟩⟩

/-- In whatever order the processes take their steps: calls on blocks in the first 4 GiB move, change and
zero exactly the bytes they are to; and `disk0_io` moves whole blocks of the device and refuses
everything else, as long as no transfer beyond the device gets block numbers of the device by wrapping. -/
theorem block_layer_exact (sfs : SfsFs) (dev : Device) :
    Exact ι (sfsSystem sfs) (fun request => request.Proper sfs ∧ request.Low) SfsEffect ∧
      Exact ι (disk0System dev) (fun transfer => transfer.Proper ∧ transfer.Unwrapped dev) (Disk0Effect dev) :=
  ⟨exact_of_exclusive (sfs_exclusive sfs), exact_of_exclusive (disk0_exclusive dev)⟩

/-! ## Small devices -/

/-- A file system of two blocks. -/
def twoBlocks : SfsFs := ⟨⟨16, by decide⟩, 2, by decide⟩

def fill : Request := ⟨.wblock 1 1, ⟨4096, fun _ => 7⟩⟩

def fetch : Request := ⟨.rbuf 4 1 10, ⟨4, fun _ => 0⟩⟩

def quiet : State Nat Sem Memory Buffer Int Request := ⟨⟨fun _ => 0, fun _ => 0, fun _ => 0⟩, fun _ => 1, fun _ => none⟩

/-- While one process waits to read from a block another one writes it: the bytes that are read are the new ones. -/
theorem fetch_behind_fill : ∃ s own own', Run (sfsSystem twoBlocks) (fun request => request.Proper twoBlocks ∧ request.Low) quiet
      [⟨fill, own, 0⟩, ⟨fetch, own', 0⟩] s ∧
    s.Live ∧ s.shared.disk 4096 = 7 ∧ ∀ i < 4, own'.bytes i = 7 := by
  have fill_allowed : fill.Proper twoBlocks ∧ fill.Low := ⟨⟨by decide, le_rfl, le_rfl⟩, show 1 + 1 ≤ 2 ^ 20 by decide⟩
  have fetch_allowed : fetch.Proper twoBlocks ∧ fetch.Low :=
    ⟨⟨by decide, by decide, by decide, by decide, by decide, le_rfl⟩, show 1 < 2 ^ 20 by decide⟩
  obtain ⟨after, filled, -⟩ := serves fill fill_allowed.1 fill_allowed.2 quiet.shared
  obtain ⟨after', fetched, -⟩ := serves fetch fetch_allowed.1 fetch_allowed.2 after.1
  obtain ⟨body, waits, -⟩ := sfs_encloses fetch fetch_allowed.1
  have run : Run (sfsSystem twoBlocks) (fun request => request.Proper twoBlocks ∧ request.Low) quiet
      [⟨fill, after.2, fill.returned⟩, ⟨fetch, after'.2, fetch.returned⟩] { quiet with shared := after'.1 } := by
    refine @Run.overtakes _ _ _ _ _ _ _ _ (sfsSystem twoBlocks) _ quiet 0 1 (by decide) rfl rfl fetch fill fetch_allowed fill_allowed
      (fun value ends => ?_) _ _ _ _ _ _ _ _ filled fetched
    rw [waits] at ends
    cases ends
  obtain ⟨live, disk, serial, ended⟩ := (block_layer_exact twoBlocks twoBlocks.dev).1 quiet _ _ (fun _ => rfl) rfl run
  obtain ⟨between, first, second⟩ := @Serial.of_snoc _ _ _ _ SfsEffect _ _ [⟨fill, after.2, fill.returned⟩] _ serial
  obtain ⟨wrote, -, -⟩ := first.of_single
  obtain ⟨kept, read, -⟩ := second
  have content : disk = overlay (fun _ => 0) (fun _ => 7) (1 * sfsBlksize) (1 * sfsBlksize) := kept.trans wrote
  have same : between = disk := kept.symm
  refine ⟨_, _, _, run, live, ?_, fun i inside => ?_⟩
  · rw [ended fun _ => rfl, content]
    rfl
  · dsimp only at read
    rw [read, same, content]
    have within : 1 * sfsBlksize ≤ 1 * sfsBlksize + (10 + (i - 0)) ∧ 1 * sfsBlksize + (10 + (i - 0)) < 1 * sfsBlksize + 1 * sfsBlksize := by
      rw [sfsBlksize]
      omega
    simp only [fetch, Request.readBack]
    rw [overlay, if_pos ⟨Nat.zero_le i, by omega⟩, overlay]
    exact if_pos within

/-- A device of one block, and a write of a block 16 TiB behind it. -/
def oneBlock : Device := ⟨8, by decide⟩

def far : Transfer := ⟨0x100000000000, 4096, true, ⟨4096, fun _ => 1⟩⟩

def rest : State Nat Sem Memory Buffer (Int × Iobuf) Transfer := ⟨⟨fun _ => 0, fun _ => 0, fun _ => 0⟩, fun _ => 1, fun _ => none⟩

/-- The write is done on the one block that there is. -/
theorem far_write_wraps :
    (∃ s own value, Run (disk0System oneBlock) Transfer.Proper rest [⟨far, own, value⟩] s ∧ value.1 = 0 ∧
        s.shared.disk = overlay (fun _ => 0) (fun _ => 1) disk0Blksize 0) ∧
      ¬ Exact Nat (disk0System oneBlock) Transfer.Proper (Disk0Effect oneBlock) := by
  have aligned : far.offset.tmod disk0Blksize = 0 := by decide
  have first : uint32 (far.offset.tdiv disk0Blksize) = 0 := by decide
  have room : 0 + 1 * disk0Blksize ≤ sizeOf oneBlock (rest.shared, far.buffer) .buffer := by
    rw [Nat.zero_add, Nat.one_mul]
    exact Nat.le_refl 4096
  have whole : far.iobuf.resid = 1 * disk0Blksize := (Nat.one_mul 4096).symm
  have blocks : 0 + 1 ≤ oneBlock.dBlocks := by decide
  obtain ⟨after, runs, moved⟩ : ∃ after, Runs (disk0Io oneBlock far.iobuf true) (fun _ => 1) (rest.shared, far.buffer) _ after ∧
      Moved (goal true far.iobuf.base 0) (origin true far.iobuf.base 0) (1 * disk0Blksize) (rest.shared, far.buffer) after :=
    disk0Io_runs true (.inr rfl) aligned first whole room blocks Nat.one_pos
  rw [Nat.one_mul] at moved runs
  have ran : ((disk0System oneBlock).program far).alone (rest.shared, far.buffer) rest.sems =
      some ((0, far.iobuf.skip disk0Blksize), (after.1, after.2), fun _ => 1) := runs
  have proper : far.Proper := Nat.le_refl 4096
  have run : Run (disk0System oneBlock) Transfer.Proper rest [⟨far, after.2, (0, far.iobuf.skip disk0Blksize)⟩]
      { rest with shared := after.1, sems := fun _ => 1 } := Run.single 0 rfl proper ran
  have target : after.1.disk = overlay (fun _ => 0) (fun _ => 1) disk0Blksize (0 * disk0Blksize) := moved.target
  rw [Nat.zero_mul] at target
  refine ⟨⟨_, _, _, run, rfl, target⟩, fun exact_effect => ?_⟩
  obtain ⟨-, disk, serial, -⟩ := exact_effect rest _ _ (fun _ => rfl) rfl run
  have outside : ¬ (far.Aligned ∧ far.Inside oneBlock) := by
    rintro ⟨-, -, high⟩
    exact absurd high (by decide)
  have refused := (serial.of_single.2 outside).1
  cases refused

end Ucore.BlockLayer
