import Ucore.SfsBitmap
import Ucore.Runs
import Ucore.Sfs

/-! The bitmap gives out the lowest free index. What it holds is read bit by
bit, across the words: index `i` is bit `i % 32` of word `i / 32`. -/
namespace Ucore.SfsBitmapProofs
open Call KernelHeap SfsBitmap Runs

variable {word : BitVec 32} {bitmap after : Bitmap} {nbits i j k : Nat} {held : Finset Nat}

/-! ## Words -/

theorem getLsbD_mask (k j : Nat) : (mask k).getLsbD j = decide (j < 32 ∧ j = k) := by
  by_cases small : j < 32
  · by_cases same : j = k
    · simp [mask, BitVec.getLsbD_shiftLeft, same]
    · by_cases below : j < k
      · simp [mask, BitVec.getLsbD_shiftLeft, same, below]
      · have other : j - k ≠ 0 := by omega
        simp [mask, BitVec.getLsbD_shiftLeft, same, other]
  · simp [small, BitVec.getLsbD_of_ge _ _ (by omega : 32 ≤ j)]

theorem and_mask (small : k < 32) : word &&& mask k ≠ 0 ↔ word.getLsbD k = true := by
  constructor
  · intro nonzero
    by_contra clear
    apply nonzero
    apply BitVec.eq_of_getLsbD_eq
    intro j inside
    by_cases same : j = k
    · subst same
      simp [Bool.not_eq_true _ ▸ clear]
    · simp [getLsbD_mask, same]
  · intro isSet zero
    have bit : (word &&& mask k).getLsbD k = true := by simp [getLsbD_mask, isSet, small]
    rw [zero] at bit
    simp at bit

theorem bit_of_ne_zero (nonzero : word ≠ 0) : ∃ k < 32, word.getLsbD k = true := by
  by_contra none_set
  push Not at none_set
  apply nonzero
  apply BitVec.eq_of_getLsbD_eq
  intro j inside
  simpa using none_set j inside

/-- The scan ends at the lowest bit from `offset` on. -/
theorem scanWord_some {offset more : Nat} (bounded : offset + more ≤ 32) (k : Nat) :
    scanWord word offset more = some k ↔
      (offset ≤ k ∧ k < offset + more ∧ word.getLsbD k = true ∧
        ∀ j, offset ≤ j → j < k → word.getLsbD j = false) := by
  induction more generalizing offset with
  | zero =>
    rw [scanWord]
    constructor
    · rintro ⟨⟩
    · omega
  | succ more ih =>
    rw [scanWord]
    by_cases here : word.getLsbD offset = true
    · rw [if_pos ((and_mask (by omega)).mpr here)]
      constructor
      · rintro ⟨⟩
        exact ⟨le_rfl, by omega, here, fun j low high => by omega⟩
      · rintro ⟨low, -, -, clear⟩
        rcases Nat.eq_or_lt_of_le low with same | above
        · rw [same]
        · rw [clear offset le_rfl above] at here
          cases here
    · rw [if_neg (mt (and_mask (by omega)).mp here), ih (by omega)]
      constructor
      · rintro ⟨low, high, isSet, clear⟩
        refine ⟨by omega, by omega, isSet, fun j above below => ?_⟩
        rcases Nat.eq_or_lt_of_le above with same | above
        · subst same
          simpa using here
        · exact clear j above below
      · rintro ⟨low, high, isSet, clear⟩
        have apart : offset ≠ k := by
          rintro rfl
          exact here isSet
        exact ⟨by omega, by omega, isSet, fun j above below => clear j (by omega) below⟩

theorem scanWord_finds (nonzero : word ≠ 0) : ∃ k, scanWord word 0 wordBits = some k := by
  have exists_bit : ∃ k, k < 32 ∧ word.getLsbD k = true := bit_of_ne_zero nonzero
  classical
  refine ⟨Nat.find exists_bit, (scanWord_some (by decide) _).mpr ⟨Nat.zero_le _, ?_, ?_, ?_⟩⟩
  · simpa [wordBits] using (Nat.find_spec exists_bit).1
  · exact (Nat.find_spec exists_bit).2
  · intro j _ below
    have unset := Nat.find_min exists_bit below
    have small := (Nat.find_spec exists_bit).1
    simpa [lt_trans below small] using unset

/-- The loop over the leftover bits turns each of them over once. -/
theorem getLsbD_markOver (word : BitVec 32) {offset more : Nat} (bounded : offset + more ≤ 32) (j : Nat) :
    (markOver word offset more).getLsbD j =
      if offset ≤ j ∧ j < offset + more then !word.getLsbD j else word.getLsbD j := by
  induction more generalizing word offset with
  | zero =>
    rw [markOver, if_neg (by omega)]
  | succ more ih =>
    rw [markOver, ih _ (by omega), BitVec.getLsbD_xor, getLsbD_mask]
    by_cases first : j = offset
    · subst first
      rw [if_neg (by omega), if_pos (by omega)]
      simp [show j < 32 by omega]
    · by_cases inside : offset + 1 ≤ j ∧ j < offset + 1 + more
      · rw [if_pos inside, if_pos (by omega)]
        simp [first]
      · rw [if_neg inside, if_neg (by omega)]
        simp [first]

/-! ## Indices -/

/-- Bit `i` of the bitmap; behind the map there is none. -/
def bit (bitmap : Bitmap) (i : Nat) : Bool := ((bitmap.map[i / wordBits]?).getD 0).getLsbD (i % wordBits)

/-- The bitmap of `nbits` indices of which those in `held` are in use. -/
structure Holds (nbits : Nat) (bitmap : Bitmap) (held : Finset Nat) : Prop where
  range : bitmap.nbits = nbits
  words : bitmap.map.length = bitmap.nwords
  fits : nbits ≤ bitmap.nwords * wordBits
  small : nbits < 2 ^ 32
  inside : ∀ i ∈ held, i < nbits
  bits : ∀ i, bit bitmap i = decide (i < nbits ∧ i ∉ held)

theorem bit_set (bitmap : Bitmap) {ix : Nat} (inside : ix < bitmap.map.length) (i : Nat) :
    bit { bitmap with map := bitmap.map.set ix word } i =
      if i / wordBits = ix then word.getLsbD (i % wordBits) else bit bitmap i := by
  by_cases here : i / wordBits = ix
  · rw [if_pos here]
    simp [bit, here, inside]
  · rw [if_neg here]
    simp [bit, List.getElem?_set_ne (Ne.symm here)]

theorem bit_word (ix k : Nat) (small : k < wordBits) (found : bitmap.map[ix]? = some word) :
    bit bitmap (ix * wordBits + k) = word.getLsbD k := by
  have quotient : (ix * wordBits + k) / wordBits = ix := by
    simp only [wordBits] at small ⊢
    omega
  have remainder : (ix * wordBits + k) % wordBits = k := by
    simp only [wordBits] at small ⊢
    omega
  rw [bit, quotient, remainder, found, Option.getD_some]

theorem Holds.word_at (holds : Holds nbits bitmap held) (below : i < nbits) :
    ∃ word, bitmap.map[i / wordBits]? = some word ∧ word.getLsbD (i % wordBits) = decide (i ∉ held) := by
  have inside : i / wordBits < bitmap.map.length := by
    have fits := holds.fits
    rw [holds.words]
    simp only [wordBits] at fits ⊢
    omega
  refine ⟨_, List.getElem?_eq_getElem inside, ?_⟩
  have value := holds.bits i
  rw [bit, List.getElem?_eq_getElem inside, Option.getD_some] at value
  rw [value]
  simp [below]

theorem translate_returns (holds : Holds nbits bitmap held) (below : i < nbits) :
    ∃ word, bitmap.map[i / wordBits]? = some word ∧ word.getLsbD (i % wordBits) = decide (i ∉ held) ∧
      Returns (bitmapTranslate i) bitmap (i / wordBits, word) bitmap := by
  obtain ⟨word, found, value⟩ := holds.word_at below
  refine ⟨word, found, value, ?_⟩
  rw [← holds.range] at below
  simp [bitmapTranslate, Returns, bind, gets, Call.assert, below, pure, found]

theorem mod_wordBits (i : Nat) : i % wordBits < 32 := Nat.mod_lt _ (by decide)

theorem test_returns (holds : Holds nbits bitmap held) (below : i < nbits) :
    Returns (bitmapTest i) bitmap (decide (i ∉ held)) bitmap := by
  obtain ⟨word, -, value, ran⟩ := translate_returns holds below
  refine returns_bind.mpr ⟨_, _, ran, returns_pure.mpr ⟨?_, rfl⟩⟩
  rw [← value, Bool.eq_iff_iff, decide_eq_true_eq]
  exact and_mask (mod_wordBits i)

theorem free_returns (holds : Holds nbits bitmap held) (used : i ∈ held) :
    ∃ after, Returns (bitmapFree i) bitmap () after ∧ Holds nbits after (held.erase i) := by
  have below := holds.inside i used
  obtain ⟨word, found, value, ran⟩ := translate_returns holds below
  have clear : word.getLsbD (i % wordBits) = false := by simp [value, used]
  have unset : word &&& mask (i % wordBits) = 0 := by
    by_contra nonzero
    rw [(and_mask (mod_wordBits i)).mp nonzero] at clear
    cases clear
  have inside : i / wordBits < bitmap.map.length := (List.getElem?_eq_some_iff.mp found).1
  refine ⟨{ bitmap with map := bitmap.map.set (i / wordBits) (word ||| mask (i % wordBits)) }, ?_, ?_⟩
  · refine returns_bind.mpr ⟨_, _, ran, returns_bind.mpr ⟨(), _, returns_assert.mpr ⟨?_, rfl⟩, ?_⟩⟩
    · simpa using unset
    · exact returns_modify.mpr rfl
  · refine ⟨holds.range, by simpa using holds.words, holds.fits, holds.small, fun j member => ?_, fun j => ?_⟩
    · exact holds.inside j (Finset.mem_of_mem_erase member)
    · rw [bit_set bitmap inside]
      by_cases sameWord : j / wordBits = i / wordBits
      · rw [if_pos sameWord, BitVec.getLsbD_or, getLsbD_mask]
        have before := holds.bits j
        rw [bit, sameWord, found, Option.getD_some] at before
        rw [before]
        by_cases same : j = i
        · subst same
          simp [mod_wordBits, below]
        · have other : j % wordBits ≠ i % wordBits := by
            intro equal
            apply same
            rw [← Nat.div_add_mod j wordBits, ← Nat.div_add_mod i wordBits, sameWord, equal]
          simp [other, same]
      · have other : j ≠ i := by
          rintro rfl
          exact sameWord rfl
        rw [if_neg sameWord, holds.bits j]
        simp [other]

/-! ## The scan over the words -/

/-- What is left to scan is clear up to the word at `ix`. -/
theorem allocLoop_returns (holds : Holds nbits bitmap held) (ix more : Nat) (all : ix + more = bitmap.nwords)
    (clear : ∀ j < ix * wordBits, bit bitmap j = false) :
    (∃ i after, Returns (allocLoop ix more) bitmap i after ∧ i < nbits ∧ i ∉ held ∧
        (∀ j < i, j < nbits → j ∈ held) ∧ Holds nbits after (insert i held)) ∨
      (Fails (allocLoop ix more) bitmap (-eNoMem) bitmap ∧ ∀ j < nbits, j ∈ held) := by
  induction more generalizing ix with
  | zero =>
    right
    refine ⟨rfl, fun j below => ?_⟩
    have fits := holds.fits
    have unset := clear j (by rw [show ix = bitmap.nwords by omega]; omega)
    rw [holds.bits j] at unset
    simpa [below] using unset
  | succ more ih =>
    have inside : ix < bitmap.map.length := by
      rw [holds.words]
      omega
    have found := List.getElem?_eq_getElem inside
    generalize bitmap.map[ix] = word at found
    by_cases zero : word = 0
    · have rest := ih (ix + 1) (by omega) (fun j below => ?_)
      · have run : allocLoop ix (more + 1) bitmap = allocLoop (ix + 1) more bitmap := by
          rw [allocLoop]
          simp [bind, gets, found, zero]
        simpa only [Returns, Fails, run] using rest
      · by_cases earlier : j < ix * wordBits
        · exact clear j earlier
        · have here : j / wordBits = ix := by
            simp only [wordBits] at below earlier ⊢
            omega
          rw [bit, here, found, zero]
          simp
    · left
      obtain ⟨k, scanned⟩ := scanWord_finds zero
      obtain ⟨-, small, isSet, lower⟩ := (scanWord_some (by decide) k).mp scanned
      rw [Nat.zero_add] at small
      have index : bit bitmap (ix * wordBits + k) = true := by rw [bit_word ix k small found, isSet]
      rw [holds.bits, decide_eq_true_eq] at index
      obtain ⟨below, fresh⟩ := index
      have exact_index : uint32 (ix * wordBits + k) = ix * wordBits + k :=
        Nat.mod_eq_of_lt (below.trans holds.small)
      refine ⟨ix * wordBits + k, { bitmap with map := bitmap.map.set ix (word ^^^ mask k) }, ?_, below, fresh, ?_, ?_⟩
      · have nonzero : word ≠ 0#32 := zero
        rw [allocLoop]
        simp [Returns, bind, gets, Call.modify, pure, found, nonzero, scanned, exact_index]
      · intro j less inRange
        have unset : bit bitmap j = false := by
          by_cases earlier : j < ix * wordBits
          · exact clear j earlier
          · obtain ⟨m, rfl⟩ := Nat.exists_eq_add_of_le (Nat.le_of_not_lt earlier)
            rw [bit_word ix m (by omega) found]
            exact lower m (Nat.zero_le m) (by omega)
        rw [holds.bits j] at unset
        simpa [inRange] using unset
      · refine ⟨holds.range, by simpa using holds.words, holds.fits, holds.small, fun j member => ?_, fun j => ?_⟩
        · rcases Finset.mem_insert.mp member with rfl | member
          · exact below
          · exact holds.inside j member
        · rw [bit_set bitmap inside]
          by_cases sameWord : j / wordBits = ix
          · have split : j = ix * wordBits + j % wordBits := by
              rw [← sameWord, Nat.mul_comm]
              exact (Nat.div_add_mod j wordBits).symm
            have before := holds.bits j
            rw [bit, sameWord, found, Option.getD_some] at before
            rw [if_pos sameWord, BitVec.getLsbD_xor, getLsbD_mask, before]
            by_cases same : j % wordBits = k
            · have here : j = ix * wordBits + k := by rw [split, same]
              rw [same, here]
              simp [below, fresh, show k < 32 from small]
            · have other : j ≠ ix * wordBits + k := by
                intro equal
                apply same
                rw [equal] at split ⊢
                omega
              simp [same, other]
          · have other : j ≠ ix * wordBits + k := by
              rintro rfl
              apply sameWord
              simp only [wordBits] at small ⊢
              omega
            rw [if_neg sameWord, holds.bits j]
            simp [other]

theorem alloc_returns (holds : Holds nbits bitmap held) :
    (∃ i after, Returns bitmapAlloc bitmap i after ∧ i < nbits ∧ i ∉ held ∧
        (∀ j < i, j < nbits → j ∈ held) ∧ Holds nbits after (insert i held)) ∨
      (Fails bitmapAlloc bitmap (-eNoMem) bitmap ∧ ∀ j < nbits, j ∈ held) := by
  have run : bitmapAlloc bitmap = allocLoop 0 bitmap.nwords bitmap := rfl
  simpa only [Returns, Fails, run] using allocLoop_returns holds 0 bitmap.nwords (Nat.zero_add _) (by simp)

/-! ## A new bitmap -/

theorem nwordsFor_eq (small : nbits < 2 ^ 32) : nwordsFor nbits = (nbits + 31) / 32 := by
  simp only [nwordsFor, uint32, wordBits]
  omega

theorem bit_fresh (nbits nwords i : Nat) :
    bit ⟨nbits, nwords, List.replicate nwords (BitVec.allOnes 32)⟩ i = decide (i / wordBits < nwords) := by
  by_cases inside : i / wordBits < nwords
  · rw [bit, List.getElem?_replicate, if_pos inside, Option.getD_some, BitVec.getLsbD_allOnes]
    simp [inside, mod_wordBits]
  · rw [bit, List.getElem?_replicate, if_neg inside]
    simp [inside]

/-- All indices are free where they fill the last word. -/
theorem holds_whole (small : nbits < 2 ^ 32) (whole : nbits = nwordsFor nbits * wordBits) :
    Holds nbits ⟨nbits, nwordsFor nbits, List.replicate (nwordsFor nbits) (BitVec.allOnes 32)⟩ ∅ := by
  refine ⟨rfl, by simp, whole.le, small, by simp, fun i => ?_⟩
  rw [bit_fresh, decide_eq_decide]
  simp only [wordBits] at whole ⊢
  simp only [Finset.notMem_empty, not_false_eq_true, and_true]
  omega

/-- All indices are free, and the leftover bits of the last word are in use. -/
theorem holds_part (small : nbits < 2 ^ 32) (part : nbits ≠ nwordsFor nbits * wordBits) :
    Holds nbits ⟨nbits, nwordsFor nbits, (List.replicate (nwordsFor nbits) (BitVec.allOnes 32)).set (nwordsFor nbits - 1)
      (markOver (BitVec.allOnes 32) (nbits - (nwordsFor nbits - 1) * wordBits)
        (wordBits - (nbits - (nwordsFor nbits - 1) * wordBits)))⟩ ∅ := by
  have count := nwordsFor_eq small
  generalize nwordsFor nbits = nwords at *
  simp only [wordBits] at part
  have last : nwords - 1 < (List.replicate nwords (BitVec.allOnes 32)).length := by
    rw [List.length_replicate]
    omega
  have fits : nbits ≤ nwords * wordBits := by
    simp only [wordBits]
    omega
  refine ⟨rfl, by simp, fits, small, by simp, fun i => ?_⟩
  apply (bit_set ⟨nbits, nwords, List.replicate nwords (BitVec.allOnes 32)⟩ last i).trans
  have place := Nat.div_add_mod i wordBits
  have inWord := mod_wordBits i
  obtain ⟨first, first_eq⟩ : ∃ first, first = nbits - (nwords - 1) * wordBits := ⟨_, rfl⟩
  have words : wordBits = 32 := rfl
  rw [← first_eq, words]
  rw [words] at place inWord first_eq
  by_cases inLast : i / 32 = nwords - 1
  · rw [if_pos inLast, getLsbD_markOver _ (by omega), BitVec.getLsbD_allOnes, decide_eq_true inWord]
    rw [inLast] at place
    by_cases below : i < nbits
    · rw [if_neg (by omega)]
      simp [below]
    · rw [if_pos (by omega)]
      simp [below]
  · rw [if_neg inLast, bit_fresh, decide_eq_decide, words]
    simp only [Finset.notMem_empty, not_false_eq_true, and_true]
    omega

/-- A bitmap of free indices, with its two objects behind those that were there; without memory for both
nothing is kept. -/
structure Created (nbits : Nat) (heap : Heap) (made : Option (Bitmap × Nat × Nat)) (after : Heap) : Prop where
  met : made.isSome = true ↔ heap.kmallocs 0 = true ∧ heap.kmallocs 1 = true
  refused : made = none → heap.sizes heap.allocated = none → after.sizes = heap.sizes
  holds : ∀ bitmap object mapObject, made = some (bitmap, object, mapObject) →
    Holds nbits bitmap ∅ ∧ object = heap.allocated ∧ mapObject = heap.allocated + 1 ∧
      after = (heap.given sizeofBitmap).given (4 * nwordsFor nbits) ∧ bitmap.nwords = nwordsFor nbits

theorem create_settles {nbits : BitVec 32} (positive : nbits ≠ 0) (heap : Heap) {bad : Int → Heap → Prop} {halt : Prop} :
    Settles (bitmapCreate nbits) (Created nbits.toNat heap) bad halt heap := by
  have bound := nbits.isLt
  have count := nwordsFor_eq bound
  have words : wordBits = 32 := rfl
  have nonzero : nbits.toNat ≠ 0 := fun zero => positive (BitVec.eq_of_toNat_eq zero)
  refine .bind (.assert (fun _ => ?_) fun failed => ?_)
  · refine .bind (kmalloc_settles (fun unmet => ?_) fun met => ?_)
    · exact .pure ⟨by simp [unmet], fun _ _ => rfl, by rintro _ _ _ ⟨⟩⟩
    refine .bind (kmalloc_settles (fun unmet => ?_) fun met' => ?_)
    · refine .bind (kfree_settles (by simp) (.pure ⟨?_, fun _ free => ?_, by rintro _ _ _ ⟨⟩⟩))
      · simpa using fun _ => unmet
      · funext object
        by_cases same : object = heap.allocated
        · simp [same, free]
        · simp [same]
    refine .bind (inside_settles (by simp) le_rfl ?_)
    have both : heap.kmallocs 0 = true ∧ heap.kmallocs 1 = true := ⟨met, met'⟩
    split
    · rename_i part
      refine .bind (.assert (fun _ => ?_) fun failed => ?_)
      · refine .bind (.assert (fun _ => ?_) fun failed => ?_)
        · refine .bind (.assert (fun _ => .pure ⟨by simp [both], by rintro ⟨⟩, ?_⟩) fun failed => ?_)
          · rintro _ _ _ ⟨⟩
            exact ⟨holds_part bound part, rfl, rfl, rfl, rfl⟩
          · rw [decide_eq_false_iff_not, List.length_replicate] at failed
            omega
        · simp only [Bool.and_eq_false_iff, decide_eq_false_iff_not] at failed
          rw [words] at failed part
          omega
      · rw [decide_eq_false_iff_not, words] at failed
        rw [words] at part
        omega
    · rename_i whole
      refine .pure ⟨by simp [both], by rintro ⟨⟩, ?_⟩
      rintro _ _ _ ⟨⟩
      exact ⟨holds_whole bound (not_not.mp whole), rfl, rfl, rfl, rfl⟩
  · simp only [Bool.and_eq_false_iff, decide_eq_false_iff_not, words] at failed
    rcases failed with zero | wraps
    · exact absurd positive (by simpa using zero)
    · omega

/-! ## Runs -/

/-- A bitmap and the indices that have been given out and not freed since. -/
structure Allocator where
  bitmap : Bitmap
  held : Finset Nat

inductive Event where
  | alloc
  | free (index : Nat)

def step (state : Allocator) : Event → Option Allocator
  | .alloc => (bitmapAlloc state.bitmap).map fun (outcome, bitmap) =>
    match outcome with
    | .ok index => ⟨bitmap, insert index state.held⟩
    | .error _ => ⟨bitmap, state.held⟩
  | .free index => (bitmapFree index state.bitmap).map fun (_, bitmap) => ⟨bitmap, state.held.erase index⟩

/-- Only what has been given out is freed. -/
def Given (state : Allocator) : Event → Prop
  | .alloc => True
  | .free index => index ∈ state.held

/-- The lowest index that is not held is given out, and none only where all are held. -/
def Answered (nbits : Nat) (state : Allocator) (after : Allocator) : Event → Prop
  | .alloc =>
    (∃ index, Returns bitmapAlloc state.bitmap index after.bitmap ∧
      IsLeast {i | i < nbits ∧ i ∉ state.held} index ∧ after.held = insert index state.held) ∨
    (Fails bitmapAlloc state.bitmap (-eNoMem) after.bitmap ∧ (∀ i < nbits, i ∈ state.held) ∧ after.held = state.held)
  | .free index => Returns (bitmapFree index) state.bitmap () after.bitmap ∧ after.held = state.held.erase index

/-- The test of an index tells whether it is free. -/
def Tests (nbits : Nat) (state : Allocator) : Prop :=
  ∀ i < nbits, Returns (bitmapTest i) state.bitmap (decide (i ∉ state.held)) state.bitmap

theorem step_answered (nbits : Nat) (state : Allocator) (event : Event) (holds : Holds nbits state.bitmap state.held)
    (given : Given state event) :
    ∃ after, step state event = some after ∧ (Answered nbits state after event ∧ Tests nbits after) ∧
      Holds nbits after.bitmap after.held := by
  cases event with
  | alloc =>
    rcases alloc_returns holds with ⟨index, bitmap, ran, below, fresh, least, holds'⟩ | ⟨failed, full⟩
    · refine ⟨⟨bitmap, insert index state.held⟩, ?_, ⟨.inl ⟨index, ran, ⟨⟨below, fresh⟩, ?_⟩, rfl⟩, ?_⟩, holds'⟩
      · rw [Returns] at ran
        simp [step, ran]
      · rintro i ⟨inRange, unheld⟩
        by_contra lower
        exact unheld (least i (Nat.lt_of_not_le lower) inRange)
      · exact fun i inRange => test_returns holds' inRange
    · refine ⟨state, ?_, ⟨.inr ⟨failed, full, rfl⟩, fun i inRange => test_returns holds inRange⟩, holds⟩
      rw [Fails] at failed
      simp [step, failed]
  | free index =>
    obtain ⟨bitmap, ran, holds'⟩ := free_returns holds given
    refine ⟨⟨bitmap, state.held.erase index⟩, ?_, ⟨⟨ran, rfl⟩, fun i inRange => test_returns holds' inRange⟩, holds'⟩
    rw [Returns] at ran
    simp [step, ran]

/-- A new bitmap has all its indices free, unless there is no memory for it, and in every run it gives out
the lowest free one. -/
theorem bitmap_allocates (nbits : BitVec 32) (positive : nbits ≠ 0) (heap : Heap) :
    ∃ made after, Returns (bitmapCreate nbits) heap made after ∧
      (made = none ↔ ¬ (heap.kmallocs 0 = true ∧ heap.kmallocs 1 = true)) ∧
      ∀ bitmap object mapObject, made = some (bitmap, object, mapObject) →
        Tests nbits.toNat ⟨bitmap, ∅⟩ ∧ ∀ events, Along step Given ⟨bitmap, ∅⟩ events →
          Safe step (fun state event after => Answered nbits.toNat state after event ∧ Tests nbits.toNat after)
            ⟨bitmap, ∅⟩ events := by
  have settles : Settles (bitmapCreate nbits) (Created nbits.toNat heap) (fun _ _ => False) False heap :=
    create_settles positive heap
  cases ran : bitmapCreate nbits heap with
  | none => exact (settles.stops ran).elim
  | some reached =>
    obtain ⟨ret | made, after⟩ := reached
    · exact (settles.fails ret after ran).elim
    · have created := settles.returns made after ran
      refine ⟨made, after, ran, ?_, fun bitmap object mapObject same => ?_⟩
      · rw [← created.met, Option.not_isSome_iff_eq_none]
      · have holds := (created.holds bitmap object mapObject same).1
        refine ⟨fun i inRange => test_returns holds inRange, fun events along => ?_⟩
        exact safe_of_invariant (step_answered nbits.toNat) holds along

/-- Memory for every request. -/
def freshHeap : Heap := ⟨fun _ => true, 0, fun _ => none⟩

/-- The first index given out is 0, which may be freed then. -/
theorem bitmap_allocates_forty :
    ∃ bitmap object mapObject after, Returns (bitmapCreate 40#32) freshHeap (some (bitmap, object, mapObject)) after ∧
      Tests 40 ⟨bitmap, ∅⟩ ∧
      Safe step (fun state event after => Answered 40 state after event ∧ Tests 40 after) ⟨bitmap, ∅⟩
        [.alloc, .free 0, .alloc] := by
  obtain ⟨made, after, ran, unmade, serves⟩ := bitmap_allocates 40#32 (by decide) freshHeap
  have settles : Settles (bitmapCreate 40#32) (Created 40 freshHeap) (fun _ _ => False) False freshHeap :=
    create_settles (by decide) freshHeap
  have created := settles.returns made after ran
  cases made with
  | none => exact absurd ⟨rfl, rfl⟩ (unmade.mp rfl)
  | some made =>
    obtain ⟨bitmap, object, mapObject⟩ := made
    have holds := (created.holds bitmap object mapObject rfl).1
    obtain ⟨tests, safe⟩ := serves bitmap object mapObject rfl
    refine ⟨bitmap, object, mapObject, after, ran, tests, safe _ ⟨trivial, fun first stepped => ⟨?_, fun _ _ => ⟨trivial, fun _ _ => trivial⟩⟩⟩⟩
    rcases alloc_returns holds with ⟨index, given, ran, -, -, least, -⟩ | ⟨-, full⟩
    · rw [Returns] at ran
      simp only [step, ran, Option.map_some, Option.some.injEq] at stepped
      have zero : index = 0 := by
        by_contra positive
        exact absurd (least 0 (Nat.pos_of_ne_zero positive) (by decide)) (Finset.notMem_empty 0)
      simp [Given, ← stepped, zero]
    · exact absurd (full 0 (by decide)) (Finset.notMem_empty 0)

/-! ## The freemap of a file system -/

/-- The allocator of blocks reads the freemap as the set of its set bits. -/
theorem alloc_refines (holds : Holds nbits bitmap held) (sfs : Sfs.SfsFs) (range : Sfs.freemapBits sfs.blocks = nbits)
    (same : sfs.freemap = bit bitmap) :
    Sfs.bitmapAlloc sfs = (bitmapAlloc bitmap).map fun (outcome, after) => (outcome, { sfs with freemap := bit after }) := by
  rcases alloc_returns holds with ⟨index, after, ran, below, fresh, least, holds'⟩ | ⟨failed, full⟩
  · have found : (List.range (Sfs.freemapBits sfs.blocks)).find? sfs.freemap = some index := by
      rw [List.find?_range_eq_some, range, same, holds.bits index]
      refine ⟨by simp [below, fresh], by simpa using below, fun j lower => ?_⟩
      rw [holds.bits j]
      by_cases inRange : j < nbits
      · simp [least j lower inRange]
      · simp [inRange]
    have bits : Function.update sfs.freemap index false = bit after := by
      funext j
      by_cases at_index : j = index
      · simp [at_index, holds'.bits]
      · simp [at_index, same, holds'.bits, holds.bits]
    have returned : Returns Sfs.bitmapAlloc sfs index { sfs with freemap := bit after } := by
      apply returns_bind.mpr
      refine ⟨sfs, sfs, returns_gets.mpr ⟨rfl, rfl⟩, ?_⟩
      rw [found, ← bits]
      exact returns_bind.mpr ⟨(), _, returns_modify.mpr rfl, returns_pure.mpr ⟨rfl, rfl⟩⟩
    rw [show bitmapAlloc bitmap = some (.ok index, after) from ran]
    exact returned
  · have missing : (List.range (Sfs.freemapBits sfs.blocks)).find? sfs.freemap = none := by
      rw [List.find?_range_eq_none, range, same]
      intro j inRange
      rw [holds.bits j]
      simp [full j inRange]
    have refused : Fails Sfs.bitmapAlloc sfs (-eNoMem) { sfs with freemap := bit bitmap } := by
      apply fails_bind.mpr
      refine .inr ⟨sfs, sfs, returns_gets.mpr ⟨rfl, rfl⟩, ?_⟩
      rw [missing, ← same]
      exact fails_fail.mpr ⟨rfl, rfl⟩
    rw [show bitmapAlloc bitmap = some (.error (-eNoMem), bitmap) from failed]
    exact refused

end Ucore.SfsBitmapProofs
