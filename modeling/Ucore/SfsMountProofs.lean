import Ucore.SfsBitmapProofs
import Ucore.SfsMount

/-! Mounting gives back what it has allocated wherever it fails. What it does not look
at is a block count of zero, one that the size of the freemap does not fit 32 bits for,
a number of unused blocks that is not the one of the freemap, and the bits of the
freemap behind the last block; the first three end in failed assertions. -/
namespace Ucore.SfsMount
open Call KernelHeap SfsBitmap SfsBitmapProofs

variable {state : State} {dev : Device} {halt : Prop} {base : Nat → Option Nat}

/-! ## Reading -/

def State.read (state : State) : State := { state with reads := fun n => state.reads (n + 1) }

/-- The block is on the device and the read number `k` from now on succeeds. -/
def Answers (dev : Device) (state : State) (k blkno : Nat) : Prop := blkno < dev.dBlocks ∧ state.reads k = 0

/-- Another state of the reads only. -/
def SameButReads (state after : State) : Prop := after.heap = state.heap ∧ after.vdevs = state.vdevs

theorem sfsInitRead_settles {bad : Int → State → Prop} {post : (Nat → BitVec 32) → State → Prop} {blkno object data size : Nat}
    (small : blkno < 2 ^ 19) (live : state.heap.sizes object = some size) (within_object : data + sfsBlksize ≤ size)
    (read : Answers dev state 0 blkno → post (dev.content blkno) state.read)
    (failed : ∀ ret after, ¬ Answers dev state 0 blkno → SameButReads state after → bad ret after) :
    Settles (sfsInitRead dev blkno object data) post bad halt state := by
  have offset : uint32 (uint32 (blkno * sfsBlksize) / sfsBlksize) = blkno := by
    simp only [uint32, sfsBlksize]
    omega
  have next : uint32 (blkno + 1) = blkno + 1 := Nat.mod_eq_of_lt (by omega)
  rw [sfsInitRead, disk0Io]
  simp only [offset, next]
  split
  · rename_i past
    exact .fail (failed _ _ (fun answers => absurd answers.1 (by omega)) ⟨rfl, rfl⟩)
  · refine .bind (.gets (.bind (.modify ?_)))
    split
    · rename_i refused
      exact .fail (failed _ _ (fun answers => refused answers.2) ⟨rfl, rfl⟩)
    · rename_i there answered
      refine .bind (.within (inside_settles live within_object (.pure (read ⟨by omega, ?_⟩))))
      simpa using answered

/-- The first words of the map are those of the first blocks of the freemap. -/
def Loaded (dev : Device) (map : List (BitVec 32)) (nblks : Nat) : Prop :=
  ∀ i < map.length, i < 1024 * nblks → map[i]? = some (dev.content (sfsBlknFreemap + i / 1024) (i % 1024))

theorem Loaded.store {map : List (BitVec 32)} {done : Nat} (loaded : Loaded dev map done) :
    Loaded dev (storeBlock map (done * sfsBlksize) (dev.content (sfsBlknFreemap + done))) (done + 1) := by
  intro i inside below
  rw [storeBlock, List.length_mapIdx] at inside
  rw [storeBlock, List.getElem?_mapIdx, List.getElem?_eq_getElem inside, Option.map_some]
  have blksize : sfsBlksize = 4096 := rfl
  split
  · rename_i here
    rw [blksize] at here
    have block : i / 1024 = done := by omega
    have word : i % 1024 = i - done * 4096 / 4 := by omega
    rw [block, word, blksize]
  · rename_i elsewhere
    rw [blksize] at elsewhere
    rw [← loaded i inside (by omega), List.getElem?_eq_getElem inside]

theorem freemapLoop_settles {nblks done size object : Nat} {map : List (BitVec 32)} (loaded : Loaded dev map done)
    (small : done + nblks < 2 ^ 18) (live : state.heap.sizes object = some size)
    (within_object : (done + nblks) * sfsBlksize ≤ size) :
    Settles (freemapLoop dev object nblks (sfsBlknFreemap + done) (done * sfsBlksize) map)
      (fun map' after => (∀ k < nblks, Answers dev state k (sfsBlknFreemap + done + k)) ∧ SameButReads state after ∧
        map'.length = map.length ∧ Loaded dev map' (done + nblks))
      (fun _ after => ¬ (∀ k < nblks, Answers dev state k (sfsBlknFreemap + done + k)) ∧ SameButReads state after)
      halt state := by
  induction nblks generalizing done map state with
  | zero => exact .pure ⟨nofun, ⟨rfl, rfl⟩, rfl, loaded⟩
  | succ nblks ih =>
    have room : done * sfsBlksize + sfsBlksize ≤ size := by
      simp only [sfsBlksize] at within_object ⊢
      omega
    have first : sfsBlknFreemap + done < 2 ^ 19 := by
      simp only [sfsBlknFreemap]
      omega
    refine .bind (sfsInitRead_settles first live room (fun answers => ?_) fun ret after refused same => ?_)
    · have live' : state.read.heap.sizes object = some size := live
      have rest := ih loaded.store (by omega) live' (by convert within_object using 2; omega)
      have next : (done + 1) * sfsBlksize = done * sfsBlksize + sfsBlksize := Nat.succ_mul ..
      rw [next] at rest
      have each : (∀ k < nblks, Answers dev state.read k (sfsBlknFreemap + (done + 1) + k)) ↔
          ∀ k < nblks + 1, Answers dev state k (sfsBlknFreemap + done + k) := by
        constructor
        · intro all k below
          cases k with
          | zero => exact answers
          | succ k =>
            have later := all k (by omega)
            rwa [show sfsBlknFreemap + (done + 1) + k = sfsBlknFreemap + done + (k + 1) by omega] at later
        · intro all k below
          have later := all (k + 1) (by omega)
          rwa [show sfsBlknFreemap + done + (k + 1) = sfsBlknFreemap + (done + 1) + k by omega] at later
      refine rest.weaken ?_ ?_
      · rintro map' after ⟨all, same, length, loaded'⟩
        refine ⟨each.mp all, same, ?_, ?_⟩
        · rw [length, storeBlock, List.length_mapIdx]
        · rwa [show done + (nblks + 1) = done + 1 + nblks by omega]
      · rintro ret after ⟨some_refused, same⟩
        exact ⟨fun all => some_refused (each.mpr all), same⟩
    · exact ⟨fun all => refused (all 0 (by omega)), same⟩

/-- Reading the whole freemap into its map. -/
theorem freemapLoop_whole {nblks object : Nat} {map : List (BitVec 32)} (length : map.length = 1024 * nblks)
    (small : nblks < 2 ^ 17) (live : state.heap.sizes object = some (4 * (1024 * nblks))) :
    Settles (freemapLoop dev object nblks sfsBlknFreemap 0 map)
      (fun map' after => (∀ k < nblks, Answers dev state k (sfsBlknFreemap + k)) ∧ SameButReads state after ∧
        map'.length = 1024 * nblks ∧ Loaded dev map' nblks)
      (fun _ after => ¬ (∀ k < nblks, Answers dev state k (sfsBlknFreemap + k)) ∧ SameButReads state after) halt state := by
  have none : Loaded dev map 0 := fun i _ below => absurd below (by omega)
  have blksize : sfsBlksize = 4096 := rfl
  have few : 0 + nblks < 2 ^ 18 := by omega
  have room : (0 + nblks) * sfsBlksize ≤ 4 * (1024 * nblks) := by
    rw [blksize]
    omega
  have reads : Settles _ _ _ halt _ := freemapLoop_settles none few live room
  simpa only [Nat.zero_add, Nat.zero_mul, Nat.add_zero, length] using reads

/-! ## The size of the freemap -/

variable {super : Super}

/-- The number of blocks that a freemap of less than 2 ^ 32 bits is for. -/
def Sized (super : Super) : Prop := 0 < super.blocks.toNat ∧ super.blocks.toNat ≤ 2 ^ 32 - sfsBlkbits

theorem bits_of_sized (sized : Sized super) : (sfsFreemapBits super).toNat = sfsBlkbits * sfsFreemapBlocks super := by
  obtain ⟨positive, small⟩ := sized
  simp only [sfsFreemapBits, sfsFreemapBlocks, uint32, BitVec.toNat_ofNat, sfsBlkbits] at small ⊢
  omega

theorem blocks_of_sized (sized : Sized super) : 0 < sfsFreemapBlocks super ∧ sfsFreemapBlocks super < 2 ^ 17 ∧
    super.blocks.toNat ≤ (sfsFreemapBits super).toNat := by
  rw [bits_of_sized sized]
  obtain ⟨positive, small⟩ := sized
  simp only [sfsFreemapBlocks, uint32, sfsBlkbits] at small ⊢
  omega

/-- A block count of zero and one that is too large ask for a freemap of no bits. -/
theorem bits_of_unsized (unsized : ¬ Sized super) : sfsFreemapBits super = 0 := by
  have bound := super.blocks.isLt
  have zero : (0 : BitVec 32).toNat = 0 := rfl
  apply BitVec.eq_of_toNat_eq
  rw [zero]
  simp only [Sized, sfsBlkbits, sfsFreemapBits, BitVec.toNat_ofNat] at unsized ⊢
  omega

theorem nwords_of_sized (sized : Sized super) :
    nwordsFor (sfsFreemapBits super).toNat = 1024 * sfsFreemapBlocks super := by
  rw [nwordsFor_eq (sfsFreemapBits super).isLt, bits_of_sized sized]
  simp only [sfsBlkbits]
  omega

/-! ## The freemap on the disk -/

/-- Bit `i` of the freemap. -/
def freeBit (dev : Device) (i : Nat) : Bool :=
  (dev.content (sfsBlknFreemap + i / sfsBlkbits) (i % sfsBlkbits / wordBits)).getLsbD (i % wordBits)

variable {bitmap : Bitmap} {nblks : Nat} {map : List (BitVec 32)}

theorem Loaded.bit (loaded : Loaded dev bitmap.map nblks) (length : bitmap.map.length = 1024 * nblks) (i : Nat) :
    bit bitmap i = (decide (i < sfsBlkbits * nblks) && freeBit dev i) := by
  have words : wordBits = 32 := rfl
  have bits : sfsBlkbits = 32768 := rfl
  by_cases below : i < sfsBlkbits * nblks
  · rw [bits] at below
    have found := loaded (i / 32) (by omega) (by omega)
    have block : i / 32 / 1024 = i / 32768 := by omega
    have word : i / 32 % 1024 = i % 32768 / 32 := by omega
    rw [SfsBitmapProofs.bit, words, found, block, word, Option.getD_some]
    simp [freeBit, words, bits, below]
  · have past : bitmap.map.length ≤ i / 32 := by
      rw [bits] at below
      omega
    rw [SfsBitmapProofs.bit, words, List.getElem?_eq_none past]
    simp [below]

/-- A loaded freemap is the bitmap of the bits that are not set on the disk. -/
theorem Loaded.holds (loaded : Loaded dev map nblks) (length : map.length = 1024 * nblks) (small : sfsBlkbits * nblks < 2 ^ 32) :
    Holds (sfsBlkbits * nblks) ⟨sfsBlkbits * nblks, 1024 * nblks, map⟩
      ((Finset.range (sfsBlkbits * nblks)).filter fun i => freeBit dev i = false) where
  range := rfl
  words := length
  fits := by
    simp only [sfsBlkbits, wordBits]
    omega
  small := small
  inside i member := Finset.mem_range.mp (Finset.mem_filter.mp member).1
  bits i := by
    have same : Loaded dev (Bitmap.mk (sfsBlkbits * nblks) (1024 * nblks) map).map nblks := loaded
    rw [same.bit length i]
    by_cases below : i < sfsBlkbits * nblks <;> simp [below]

theorem countFree_returns {nbits more i unused : Nat} {held : Finset Nat} (holds : Holds nbits bitmap held) (below : i + more ≤ nbits) :
    Returns (countFree i unused more) bitmap (unused + (List.range' i more).countP fun j => j ∉ held) bitmap := by
  induction more generalizing i unused with
  | zero => exact returns_pure.mpr ⟨rfl, rfl⟩
  | succ more ih =>
    refine returns_bind.mpr ⟨_, _, test_returns holds (by omega), ?_⟩
    rw [List.range'_succ, List.countP_cons]
    by_cases free : i ∉ held
    · have rest : Returns (countFree (i + 1) (unused + 1) more) bitmap _ bitmap := ih (by omega)
      simp only [free, not_false_eq_true, decide_true, ↓reduceIte]
      rwa [show unused + (List.countP (fun j => decide (j ∉ held)) (List.range' (i + 1) more) + 1) =
        unused + 1 + List.countP (fun j => decide (j ∉ held)) (List.range' (i + 1) more) by omega]
    · have rest : Returns (countFree (i + 1) unused more) bitmap _ bitmap := ih (by omega)
      simp only [free, decide_false, Bool.false_eq_true, ↓reduceIte]
      exact rest

/-- How many of the first `n` bits are set on the disk. -/
def freeCount (dev : Device) (n : Nat) : Nat := (List.range n).countP (freeBit dev)

theorem Loaded.counted (loaded : Loaded dev map nblks) (length : map.length = 1024 * nblks) (small : sfsBlkbits * nblks < 2 ^ 32) :
    Returns (countFree 0 0 (sfsBlkbits * nblks)) ⟨sfsBlkbits * nblks, 1024 * nblks, map⟩ (freeCount dev (sfsBlkbits * nblks))
      ⟨sfsBlkbits * nblks, 1024 * nblks, map⟩ := by
  have counted : Returns (countFree 0 0 (sfsBlkbits * nblks)) _ _ _ :=
    countFree_returns (loaded.holds length small) (Nat.zero_add _).le
  rw [Nat.zero_add] at counted
  convert counted using 1
  rw [freeCount, List.range_eq_range']
  apply List.countP_congr
  intro i member
  have below : i < sfsBlkbits * nblks := by
    rw [← List.range_eq_range', List.mem_range] at member
    exact member
  simp [below]

/-! ## Cleaning up -/

section
variable {α : Type} {post : α → State → Prop} {bad : Int → State → Prop} {fs sfsBuffer hashList object mapObject : Nat} {ret : Int}
  (held : ∀ after : State, after.heap.sizes = base → after.vdevs = state.vdevs → bad ret after)
include held

theorem failedCleanupFs_settles (owns : Owns base state.heap.sizes [fs]) :
    Settles (failedCleanupFs fs ret) post bad halt state :=
  .bind (.within (kfree_settles (owns.live _ (by simp)) (.fail (held _ owns.freed.released rfl))))

theorem failedCleanupSfsBuffer_settles (owns : Owns base state.heap.sizes [sfsBuffer, fs]) :
    Settles (failedCleanupSfsBuffer fs sfsBuffer ret) post bad halt state :=
  .bind (.within (kfree_settles (owns.live _ (by simp)) (failedCleanupFs_settles held owns.freed)))

theorem failedCleanupHashList_settles (owns : Owns base state.heap.sizes [hashList, sfsBuffer, fs]) :
    Settles (failedCleanupHashList fs sfsBuffer hashList ret) post bad halt state :=
  .bind (.within (kfree_settles (owns.live _ (by simp)) (failedCleanupSfsBuffer_settles held owns.freed)))

theorem failedCleanupFreemap_settles (owns : Owns base state.heap.sizes [mapObject, object, hashList, sfsBuffer, fs]) :
    Settles (failedCleanupFreemap fs sfsBuffer hashList object mapObject ret) post bad halt state := by
  refine .bind (.within (.bind (kfree_settles (owns.live _ (by simp)) ?_)))
  exact kfree_settles (owns.freed.live _ (by simp)) (failedCleanupHashList_settles held owns.freed.freed)

end

/-! ## The freemap -/

/-- There is memory for the bitmap, and the device answers for each of its blocks. -/
def Loads (dev : Device) (super : Super) (state : State) : Prop :=
  (state.heap.kmallocs 0 = true ∧ state.heap.kmallocs 1 = true) ∧
    ∀ k < sfsFreemapBlocks super, Answers dev state k (sfsBlknFreemap + k)

/-- A file system with the freemap of the disk. -/
structure Carries (dev : Device) (super : Super) (fs : Fs) : Prop where
  same : fs.super = super
  length : fs.freemap.map.length = 1024 * sfsFreemapBlocks super
  loaded : Loaded dev fs.freemap.map (sfsFreemapBlocks super)

theorem loadFreemap_settles {fs sfsBuffer hashList : Nat} (owns : Owns base state.heap.sizes [hashList, sfsBuffer, fs])
    (unused : Unused state.heap) :
    Settles (loadFreemap dev fs sfsBuffer hashList super)
      (fun result after => Sized super ∧ Loads dev super state ∧ super.unusedBlocks.toNat = freeCount dev (sfsFreemapBits super).toNat ∧
        Carries dev super result ∧ after.vdevs = state.vdevs)
      (fun _ after => Sized super ∧ ¬ Loads dev super state ∧ after.heap.sizes = base ∧ after.vdevs = state.vdevs)
      (¬ Sized super ∨ Loads dev super state ∧ super.unusedBlocks.toNat ≠ freeCount dev (sfsFreemapBits super).toNat) state := by
  by_cases sized : Sized super
  · obtain ⟨positive, few, covered⟩ := blocks_of_sized sized
    have bits := bits_of_sized sized
    have nwords := nwords_of_sized sized
    have nonzero : sfsFreemapBits super ≠ 0 := by
      intro zero
      rw [zero] at bits
      simp only [sfsBlkbits] at bits
      have none : (0 : BitVec 32).toNat = 0 := rfl
      omega
    have creates : Settles (bitmapCreate (sfsFreemapBits super)) (Created (sfsFreemapBits super).toNat state.heap)
      (fun _ _ => False) False state.heap := create_settles nonzero state.heap
    refine .bind (.within ((creates.halts False.elim).weaken (fun made after created => ?_) fun _ _ never => never.elim))
    cases made with
    | none =>
      have released := created.refused rfl (unused _ le_rfl)
      refine failedCleanupHashList_settles (fun after sizes vdevs => ⟨sized, fun loads => ?_, sizes, vdevs⟩) (released ▸ owns)
      exact absurd (created.met.mpr loads.1) (by simp)
    | some made =>
      obtain ⟨bitmap, object, mapObject⟩ := made
      obtain ⟨holds, rfl, rfl, rfl, count⟩ := created.holds bitmap object mapObject rfl
      have memory := created.met.mp rfl
      have owns' := (owns.given (unused _ le_rfl) sizeofBitmap).given ((unused.given sizeofBitmap) _ le_rfl)
        (4 * nwordsFor (sfsFreemapBits super).toNat)
      have blksize : sfsBlksize = 4096 := rfl
      have bytes : uint32 (sfsFreemapBlocks super * sfsBlksize) = sfsFreemapBlocks super * sfsBlksize :=
        Nat.mod_eq_of_lt (by rw [blksize]; omega)
      have length : bitmap.map.length = 1024 * sfsFreemapBlocks super := by rw [holds.words, count, nwords]
      refine .bind (.attempt (.bind (.assert (fun _ => .bind ?_) fun wrong => ?_)))
      · refine (freemapLoop_whole length few (by simp [nwords])).weaken ?_ ?_
        · rintro map after ⟨answers, ⟨-, vdevs⟩, length', loaded⟩
          have bound := (sfsFreemapBits super).isLt
          rw [bits] at bound
          have shape : ({ bitmap with map := map } : Bitmap) =
              ⟨sfsBlkbits * sfsFreemapBlocks super, 1024 * sfsFreemapBlocks super, map⟩ := by
            rw [← bits, ← nwords, ← count, ← holds.range]
          have counted : Returns (countFree 0 0 (sfsFreemapBits super).toNat) { bitmap with map := map }
              (freeCount dev (sfsFreemapBits super).toNat) { bitmap with map := map } := by
            rw [shape, bits]
            exact loaded.counted length' bound
          have loads : Loads dev super state := ⟨memory, answers⟩
          refine .pure (.bind (.within (.of_run counted (.bind (.assert (fun same => .pure ?_) fun wrong => ?_)))))
          · rw [decide_eq_true_eq] at same
            exact ⟨sized, loads, same.symm, ⟨rfl, length', loaded⟩, vdevs⟩
          · rw [decide_eq_false_iff_not] at wrong
            exact .inr ⟨loads, Ne.symm wrong⟩
        · rintro ret after ⟨refused, heap, vdevs⟩
          refine failedCleanupFreemap_settles (fun last sizes vdevs' => ⟨sized, fun loads => refused loads.2, sizes, ?_⟩) ?_
          · exact vdevs'.trans vdevs
          · rw [heap]
            exact owns'
      · rw [decide_eq_false_iff_not, count, nwords, bytes, blksize] at wrong
        omega
  · refine .bind (.within (.bind (.assert (fun nonzero => ?_) fun _ => .inl sized)))
    simp [bits_of_unsized sized] at nonzero

/-! ## From the superblock on -/

def superblock (dev : Device) : Super := superOf (dev.content sfsBlknSuper)

/-- The superblock is read and passes the checks, and there is memory up to the hash list. -/
structure Begins (dev : Device) (state : State) : Prop where
  blocksize : dev.dBlocksize = sfsBlksize
  memory : state.heap.kmallocs 0 = true ∧ state.heap.kmallocs 1 = true ∧ state.heap.kmallocs 2 = true
  read : Answers dev state 0 sfsBlknSuper
  magic : (superblock dev).magic.toNat = sfsMagic
  fits : (superblock dev).blocks.toNat ≤ dev.dBlocks

/-- The requests and the reads that come behind the superblock and the hash list. -/
def State.begun (state : State) : State := { state.read with
  heap := ((state.heap.given sizeofFs).given sfsBlksize).given (sizeofListEntry * sfsHlistSize) }

theorem sfsDoMount_settles (unused : Unused state.heap) :
    Settles (sfsDoMount dev)
      (fun fs after => Begins dev state ∧ Sized (superblock dev) ∧ Loads dev (superblock dev) state.begun ∧
        (superblock dev).unusedBlocks.toNat = freeCount dev (sfsFreemapBits (superblock dev)).toNat ∧
        Carries dev (superblock dev) fs ∧ after.vdevs = state.vdevs)
      (fun _ after => (Begins dev state → Sized (superblock dev) ∧ ¬ Loads dev (superblock dev) state.begun) ∧
        after.heap.sizes = state.heap.sizes ∧ after.vdevs = state.vdevs)
      (Begins dev state ∧ (¬ Sized (superblock dev) ∨ Loads dev (superblock dev) state.begun ∧
        (superblock dev).unusedBlocks.toNat ≠ freeCount dev (sfsFreemapBits (superblock dev)).toNat)) state := by
  rw [sfsDoMount]
  split
  · rename_i blocksize
    exact .fail ⟨fun begins => absurd begins.blocksize blocksize, rfl, rfl⟩
  rename_i blocksize
  have owns := Owns.none state.heap.sizes
  refine .bind (.within (kmalloc_settles (fun unmet => ?_) fun met => ?_))
  · exact .fail ⟨fun begins => by simp [begins.memory.1] at unmet, rfl, rfl⟩
  have owns := owns.given (unused _ le_rfl) sizeofFs
  have unused := unused.given sizeofFs
  refine .bind (.within (kmalloc_settles (fun unmet => ?_) fun met' => ?_))
  · refine failedCleanupFs_settles (fun after sizes vdevs => ⟨fun begins => ?_, sizes, vdevs⟩) owns
    rw [Heap.given_kmallocs, begins.memory.2.1] at unmet
    cases unmet
  have owns := owns.given (unused _ le_rfl) sfsBlksize
  have unused := unused.given sfsBlksize
  refine .bind (.attempt (sfsInitRead_settles (by decide) (by simp) (Nat.zero_add _).le (fun answers => ?_)
    fun ret after refused same => ?_))
  · have super : superOf (dev.content sfsBlknSuper) = superblock dev := rfl
    simp only [super]
    split
    · rename_i wrong
      refine failedCleanupSfsBuffer_settles (fun after sizes vdevs => ⟨fun begins => ?_, sizes, vdevs⟩) owns
      exact absurd begins.magic wrong
    rename_i magic
    split
    · rename_i more
      refine failedCleanupSfsBuffer_settles (fun after sizes vdevs => ⟨fun begins => ?_, sizes, vdevs⟩) owns
      exact absurd begins.fits (Nat.not_le.mpr more)
    rename_i fits
    refine .bind (.within (kmalloc_settles (fun unmet => ?_) fun met'' => ?_))
    · refine failedCleanupSfsBuffer_settles (fun after sizes vdevs => ⟨fun begins => ?_, sizes, vdevs⟩) owns
      have memory : state.heap.kmallocs 2 = false := unmet
      rw [begins.memory.2.2] at memory
      cases memory
    have begins : Begins dev state :=
      ⟨not_not.mp blocksize, ⟨met, met', met''⟩, answers, not_not.mp magic, Nat.not_lt.mp fits⟩
    refine .bind (.within (inside_settles (by simp [State.read]) le_rfl ?_))
    have owns : Owns state.heap.sizes state.begun.heap.sizes _ := owns.given (unused _ le_rfl) _
    have unused : Unused state.begun.heap := unused.given _
    refine ((loadFreemap_settles owns unused).halts fun halted => ⟨begins, halted⟩).weaken ?_ ?_
    · rintro fs after ⟨sized, loads, counted, carries, vdevs⟩
      exact ⟨begins, sized, loads, counted, carries, vdevs⟩
    · rintro ret after ⟨sized, refused, sizes, vdevs⟩
      exact ⟨fun _ => ⟨sized, refused⟩, sizes, vdevs⟩
  · refine failedCleanupSfsBuffer_settles (fun last sizes vdevs => ⟨fun begins => ?_, sizes, vdevs.trans same.2⟩) ?_
    · exact absurd begins.read refused
    · rw [same.1]
      exact owns

/-! ## Mounting a device -/

/-- The file system on the disk is one that the mount can tell is in order. -/
def Mountable (dev : Device) (state : State) : Prop :=
  Begins dev state → Sized (superblock dev) ∧ (Loads dev (superblock dev) state.begun →
    (superblock dev).unusedBlocks.toNat = freeCount dev (superblock dev).blocks.toNat ∧
      ∀ i, (superblock dev).blocks.toNat ≤ i → i < (sfsFreemapBits (superblock dev)).toNat → freeBit dev i = false)

/-- What a file system is that has been mounted. -/
structure WellMounted (dev : Device) (fs : Fs) : Prop where
  super : fs.super = superblock dev
  blocks : 1 ≤ fs.super.blocks.toNat ∧ fs.super.blocks.toNat ≤ dev.dBlocks
  length : fs.freemap.map.length = 1024 * sfsFreemapBlocks fs.super
  freemap : ∀ i < fs.freemap.map.length, fs.freemap.map[i]? = some (dev.content (sfsBlknFreemap + i / 1024) (i % 1024))
  unused : fs.super.unusedBlocks.toNat = (List.range fs.super.blocks.toNat).countP (bit fs.freemap)
  closed : ∀ i, fs.super.blocks.toNat ≤ i → bit fs.freemap i = false

variable {fs : Fs}

theorem Carries.bit (carries : Carries dev super fs) (sized : Sized super) (i : Nat) :
    bit fs.freemap i = (decide (i < (sfsFreemapBits super).toNat) && freeBit dev i) := by
  rw [bits_of_sized sized]
  exact carries.loaded.bit carries.length i

theorem Carries.count (carries : Carries dev super fs) (sized : Sized super) :
    (List.range super.blocks.toNat).countP (SfsBitmapProofs.bit fs.freemap) = freeCount dev super.blocks.toNat := by
  apply List.countP_congr
  intro i member
  have below : i < (sfsFreemapBits super).toNat := (List.mem_range.mp member).trans_le (blocks_of_sized sized).2.2
  simp [carries.bit sized i, below]

/-- Without free bits behind the last block, all free bits are in front of it. -/
theorem freeCount_closed {few many : Nat} (bound : few ≤ many) (closed : ∀ i, few ≤ i → i < many → freeBit dev i = false) :
    freeCount dev many = freeCount dev few := by
  induction many, bound using Nat.le_induction with
  | base => rfl
  | succ many bound ih =>
    rw [freeCount, List.range_succ, List.countP_append, ← freeCount, ih fun i low high => closed i low (by omega)]
    simp [closed many bound (by omega)]

theorem Carries.wellMounted_iff (carries : Carries dev (superblock dev) fs) (sized : Sized (superblock dev))
    (fits : (superblock dev).blocks.toNat ≤ dev.dBlocks) : WellMounted dev fs ↔
      (superblock dev).unusedBlocks.toNat = freeCount dev (superblock dev).blocks.toNat ∧
        ∀ i, (superblock dev).blocks.toNat ≤ i → i < (sfsFreemapBits (superblock dev)).toNat → freeBit dev i = false := by
  have count := carries.count sized
  constructor
  · intro well
    have unused := well.unused
    have closed := well.closed
    rw [carries.same] at unused closed
    refine ⟨unused.trans count, fun i past below => ?_⟩
    have clear := closed i past
    rw [carries.bit sized] at clear
    simpa [below] using clear
  · rintro ⟨unused, closed⟩
    refine ⟨carries.same, ?_, ?_, fun i inside => ?_, ?_, fun i past => ?_⟩
    · rw [carries.same]
      exact ⟨sized.1, fits⟩
    · rw [carries.same]
      exact carries.length
    · exact carries.loaded i inside (carries.length ▸ inside)
    · rw [carries.same]
      exact unused.trans count.symm
    · rw [carries.same] at past
      rw [carries.bit sized]
      by_cases below : i < (sfsFreemapBits (superblock dev)).toNat
      · simp [closed i past below]
      · simp [below]

/-- The first mountable device of that name. -/
def Found (devname : String) (state : State) (i : Nat) (vdev : Vdev) : Prop :=
  state.vdevs.findIdx? (fun vdev => vdev.mountable && vdev.devname = devname) = some i ∧ state.vdevs[i]? = some vdev

/-- The mount ends, with nothing kept or with a file system that is in order. -/
def MountsSafely (devname : String) (state : State) : Prop :=
  ∃ outcome after, sfsMount devname state = some (outcome, after) ∧
    match outcome with
    | .error _ => after.heap.sizes = state.heap.sizes ∧ after.vdevs = state.vdevs
    | .ok () => ∃ i vdev fs, Found devname state i vdev ∧ vdev.fs = none ∧ WellMounted vdev.device fs ∧
        after.vdevs = state.vdevs.set i { vdev with fs := some fs }

variable {devname : String} {i : Nat} {vdev : Vdev}

theorem sfsMount_missing (missing : state.vdevs.findIdx? (fun vdev => vdev.mountable && vdev.devname = devname) = none) :
    sfsMount devname state = some (.error (-eNoDev), state) := by
  simp [sfsMount, vfsMount, findMount, bind, gets, fail, missing]

theorem sfsMount_busy (found : Found devname state i vdev) (busy : vdev.fs.isSome = true) :
    sfsMount devname state = some (.error (-eBusy), state) := by
  simp [sfsMount, vfsMount, findMount, bind, gets, fail, pure, found.1, found.2, busy]

theorem sfsMount_found (found : Found devname state i vdev) (unmounted : vdev.fs = none) :
    sfsMount devname state = (sfsDoMount vdev.device >>= fun fs =>
      modify fun state => { state with vdevs := state.vdevs.set i { vdev with fs := some fs } }) state := by
  simp [sfsMount, vfsMount, findMount, bind, gets, pure, found.1, found.2, unmounted]

/-- The mount stops the system or mounts a file system that is not in order, if and only if it
finds one to mount with a block count that the freemap is not for, or whose free blocks are not
the counted ones in front of the last block. -/
theorem sfs_mount_safe_iff (devname : String) (state : State) (unused : Unused state.heap) :
    MountsSafely devname state ↔ ∀ i vdev, Found devname state i vdev → vdev.fs = none → Mountable vdev.device state := by
  cases search : state.vdevs.findIdx? (fun vdev => vdev.mountable && vdev.devname = devname) with
  | none =>
    refine iff_of_true ⟨_, _, sfsMount_missing search, rfl, rfl⟩ ?_
    intro i vdev found
    cases search.symm.trans found.1
  | some i =>
    obtain ⟨inside, -⟩ := List.findIdx?_eq_some_iff_getElem.mp search
    obtain ⟨vdev, at_i⟩ : ∃ vdev, state.vdevs[i]? = some vdev := ⟨_, List.getElem?_eq_getElem inside⟩
    have found : Found devname state i vdev := ⟨search, at_i⟩
    have only (i' : Nat) (vdev' : Vdev) (found' : Found devname state i' vdev') : i' = i ∧ vdev' = vdev := by
      cases search.symm.trans found'.1
      cases at_i.symm.trans found'.2
      exact ⟨rfl, rfl⟩
    cases unmounted : vdev.fs with
    | some fs =>
      refine iff_of_true ⟨_, _, sfsMount_busy found (by simp [unmounted]), rfl, rfl⟩ ?_
      intro i' vdev' found' free
      obtain ⟨rfl, rfl⟩ := only i' vdev' found'
      cases unmounted.symm.trans free
    | none =>
      have ran := sfsMount_found found unmounted
      have settles : Settles (sfsDoMount vdev.device) _ _ _ state := sfsDoMount_settles unused
      have reduce : (∀ i vdev, Found devname state i vdev → vdev.fs = none → Mountable vdev.device state) ↔
          Mountable vdev.device state := by
        constructor
        · intro all
          exact all i vdev found unmounted
        · intro mountable i' vdev' found' _
          obtain ⟨rfl, rfl⟩ := only i' vdev' found'
          exact mountable
      rw [reduce]
      cases mounted : sfsDoMount vdev.device state with
      | none =>
        obtain ⟨begins, wrong⟩ := settles.stops mounted
        refine iff_of_false ?_ fun mountable => ?_
        · rintro ⟨outcome, after, reached, -⟩
          simp [ran, bind, mounted] at reached
        · obtain ⟨sized, serves⟩ := mountable begins
          rcases wrong with unsized | ⟨loads, miscounted⟩
          · exact unsized sized
          · obtain ⟨counted, closed⟩ := serves loads
            exact miscounted (counted.trans (freeCount_closed (blocks_of_sized sized).2.2 closed).symm)
      | some reached =>
        obtain ⟨ret | fs, after⟩ := reached
        · obtain ⟨refused, sizes, vdevs⟩ := settles.fails ret after mounted
          refine iff_of_true ⟨.error ret, after, ?_, sizes, vdevs⟩ fun begins => ?_
          · rw [ran]
            simp [bind, mounted]
          · obtain ⟨sized, never⟩ := refused begins
            exact ⟨sized, fun loads => absurd loads never⟩
        · obtain ⟨begins, sized, loads, counted, carries, vdevs⟩ := settles.returns fs after mounted
          have mounts : sfsMount devname state = some (.ok (), { after with vdevs := after.vdevs.set i { vdev with fs := some fs } }) := by
            rw [ran]
            simp [bind, mounted, Call.modify]
          rw [Mountable, forall_prop_of_true begins, and_iff_right sized, forall_prop_of_true loads,
            ← carries.wellMounted_iff sized begins.fits]
          constructor
          · rintro ⟨outcome, after', reached, good⟩
            cases mounts.symm.trans reached
            obtain ⟨i', vdev', fs', found', -, well, same⟩ := good
            obtain ⟨rfl, rfl⟩ := only i' vdev' found'
            rw [vdevs] at same
            have entry := congrArg (fun vdevs => vdevs[i']?) same
            simp only [List.getElem?_set_self inside, Option.some.injEq, Vdev.mk.injEq] at entry
            rwa [entry.2.2.1]
          · intro well
            exact ⟨_, _, mounts, i, vdev, fs, found, unmounted, well, by rw [vdevs]⟩

/-! ## Small disks -/

/-- A disk with a superblock and the first word of the freemap. -/
def smallDisk (blocks unusedBlocks freemap : BitVec 32) : Device where
  dBlocks := 4
  dBlocksize := sfsBlksize
  content block word := match block, word with
    | 0, 0 => BitVec.ofNat 32 sfsMagic
    | 0, 1 => blocks
    | 0, 2 => unusedBlocks
    | 2, 0 => freemap
    | _, _ => 0

/-- It is to be mounted as `disk0`, with memory for everything and without a failing read. -/
def diskState (dev : Device) : State := ⟨freshHeap, fun _ => 0, [⟨"disk0", dev, none, true⟩]⟩

/-- Behind the fourth block no block of it is free. -/
theorem smallDisk_closed (past : 4 ≤ i) (below : i < sfsBlkbits) : freeBit (smallDisk 4 1 (mask 3)) i = false := by
  rw [freeBit, Nat.div_eq_of_lt below, Nat.mod_eq_of_lt below]
  cases word : i / wordBits with
  | zero =>
    have low : i % wordBits = i := Nat.mod_eq_of_lt (by simpa [wordBits] using word)
    have here : (smallDisk 4 1 (mask 3)).content (sfsBlknFreemap + 0) 0 = mask 3 := rfl
    rw [here, low, getLsbD_mask, decide_eq_false_iff_not]
    omega
  | succ word => simp [smallDisk, sfsBlknFreemap]

/-- Four blocks of which the last one is free. -/
theorem four_blocks_mount : MountsSafely "disk0" (diskState (smallDisk 4 1 (mask 3))) := by
  refine (sfs_mount_safe_iff "disk0" (diskState (smallDisk 4 1 (mask 3))) (fun _ _ => rfl)).mpr ?_
  rintro i vdev ⟨first, found⟩ - -
  have search : (diskState (smallDisk 4 1 (mask 3))).vdevs.findIdx?
      (fun vdev => vdev.mountable && vdev.devname = "disk0") = some 0 := by decide
  cases first.symm.trans search
  cases found
  exact ⟨⟨by decide, by decide⟩, fun _ => ⟨by decide, fun i past below => smallDisk_closed past below⟩⟩

/-- A disk of no blocks passes the checks of the superblock, and the bitmap for it is refused
with a failed assertion. -/
theorem no_blocks_stop : sfsMount "disk0" (diskState (smallDisk 0 0 0)) = none := rfl

end Ucore.SfsMount
