import Ucore.DefaultPmm
import Ucore.Extents

/-! The first-fit manager keeps its free list sorted and coalesced as long as
no block is given back above every listed block. At the tail the insertion
loop does not leave after `list_add`; it meets the block it has just added and
adds it after itself, so the block becomes its own predecessor. Both
directions are proved: the runs that keep the free list sound are exactly
those without such a call. -/
namespace Ucore.DefaultPmm
open Ucore.Ring ListHeader Extents

def linksOf (extents : List Extent) : List Node := extents.map fun e => .pageLink e.start

/-- The links, the sizes and the flags of the pages from `lo` to `hi` describe
these extents. -/
structure Listing (lo hi : Nat) (pages : Nat → Page) (links : Links Node)
    (extents : List Extent) : Prop where
  ring : IsRing links .freeList (linksOf extents)
  sized : ∀ e ∈ extents, (pages e.start).property = e.size
  inside : ∀ e ∈ extents, lo ≤ e.start ∧ e.start < hi
  flagged : ∀ i, lo ≤ i → i < hi →
    ((pages i).pgProperty = true ↔ .pageLink i ∈ linksOf extents)
  usable : ∀ i, lo ≤ i → i < hi → (pages i).pgReserved = false

private theorem linksOf_mem : Node.pageLink p ∈ linksOf extents ↔ ∃ e ∈ extents, e.start = p := by
  simp [linksOf]

private theorem linksOf_append : linksOf (lows ++ highs) = linksOf lows ++ linksOf highs := by
  simp [linksOf]

private theorem linksOf_cons : linksOf (e :: highs) = .pageLink e.start :: linksOf highs := rfl

/-! ## The loops -/

/-- The search returns the first extent that is large enough. -/
theorem findBlock_first {extents : List Extent}
    (walk : Segment area.links le (linksOf extents) .freeList)
    (sized : ∀ e ∈ extents, (area.pages e.start).property = e.size)
    (fuel : extents.length < steps) :
    findBlock area n steps le =
      some ((extents.find? fun e => decide (n ≤ e.size)).map Extent.start) := by
  induction extents generalizing le steps with
  | nil =>
    obtain ⟨steps, rfl⟩ : ∃ k, steps = k + 1 := ⟨steps - 1, by simp at fuel; omega⟩
    simp [findBlock, listNext, walk.1]
  | cons e extents ih =>
    obtain ⟨steps, rfl⟩ : ∃ k, steps = k + 1 := ⟨steps - 1, by simp at fuel; omega⟩
    obtain ⟨forward, _, rest⟩ := walk
    have size := sized e (by simp)
    simp only [findBlock, listNext, forward, size, List.find?_cons]
    by_cases enough : n ≤ e.size
    · simp [enough]
    · simp only [enough, ↓reduceIte, decide_false]
      exact ih rest (fun e member => sized e (List.mem_cons_of_mem _ member))
        (by simp at fuel; omega)

/-- Below some listed block the loop inserts before the first block above. -/
theorem insertLoop_below {lows : List Extent}
    (walk : Segment links le (linksOf lows ++ .pageLink high :: nodes) .freeList)
    (passed : ∀ e ∈ lows, e.start ≤ base) (above : base < high) (fuel : lows.length < steps) :
    insertLoop base steps links le =
      some (listAddBefore links (.pageLink high) (.pageLink base)) := by
  induction lows generalizing le steps with
  | nil =>
    obtain ⟨steps, rfl⟩ : ∃ k, steps = k + 1 := ⟨steps - 1, by simp at fuel; omega⟩
    simp [insertLoop, listNext, walk.1, above]
  | cons e lows ih =>
    obtain ⟨steps, rfl⟩ : ∃ k, steps = k + 1 := ⟨steps - 1, by simp at fuel; omega⟩
    obtain ⟨forward, _, rest⟩ := walk
    have inner : links.next (.pageLink e.start) ≠ .freeList := by
      rw [segment_next_first rest]
      cases lows <;> simp
    have low : ¬ base < e.start := Nat.not_lt.mpr (passed e (by simp))
    simp only [insertLoop, listNext, forward, low, ↓reduceIte, inner]
    exact ih rest (fun e member => passed e (List.mem_cons_of_mem _ member))
      (by simp at fuel; omega)

/-- Above every listed block the loop leaves the new block linked to itself. -/
theorem insertLoop_above {extents : List Extent} (nonempty : extents ≠ [])
    (walk : Segment links le (linksOf extents) .freeList)
    (passed : ∀ e ∈ extents, e.start < base)
    (ran : insertLoop base steps links le = some after) :
    after.prev .freeList = .pageLink base ∧ after.prev (.pageLink base) = .pageLink base ∧
      after.next (.pageLink base) = .freeList := by
  induction extents generalizing le steps with
  | nil => exact absurd rfl nonempty
  | cons e extents ih =>
    cases steps with
    | zero => simp [insertLoop] at ran
    | succ steps =>
      obtain ⟨forward, _, rest⟩ := walk
      have low : e.start < base := passed e (by simp)
      simp only [insertLoop, listNext, forward, Nat.not_lt.mpr low.le, ↓reduceIte] at ran
      cases extents with
      | nil =>
        -- the last listed block: `list_add`, then one more turn that meets `base`
        simp only [rest.1, ↓reduceIte] at ran
        cases steps with
        | zero => simp [insertLoop] at ran
        | succ steps =>
          have apart : (Node.pageLink base) ≠ .pageLink e.start := by simp; omega
          simp only [insertLoop, listNext, listAdd, listAddAfter, rawListAdd, rest.1,
            Function.update_self, Function.update_of_ne apart.symm, lt_irrefl, ↓reduceIte] at ran
          cases steps with
          | zero => simp [insertLoop] at ran
          | succ steps =>
            simp [insertLoop, listNext] at ran
            subst ran
            simp
      | cons next extents =>
        have inner : links.next (.pageLink e.start) ≠ .freeList := by
          rw [segment_next_first rest]
          simp
        simp only [inner, ↓reduceIte] at ran
        exact ih (by simp) rest (fun e member => passed e (List.mem_cons_of_mem _ member)) ran

/-- The pages given back lose their flags and count, and keep their size field. -/
theorem resetAllocated_pages (usable : ∀ i, p ≤ i → i < p + n →
      (pages i).pgReserved = false ∧ (pages i).pgProperty = false) :
    ∃ after, resetAllocated n p pages = some after ∧
      (∀ i, p ≤ i → i < p + n → after i = ⟨0, false, false, (pages i).property⟩) ∧
      ∀ i, ¬ (p ≤ i ∧ i < p + n) → after i = pages i := by
  induction n generalizing p pages with
  | zero => exact ⟨pages, rfl, by omega, fun _ _ => rfl⟩
  | succ n ih =>
    obtain ⟨unreserved, unflagged⟩ := usable p (le_refl _) (by omega)
    have later : ∀ i, p + 1 ≤ i → i < p + 1 + n →
        (Function.update pages p ⟨0, false, false, (pages p).property⟩ i).pgReserved = false ∧
        (Function.update pages p ⟨0, false, false, (pages p).property⟩ i).pgProperty = false := by
      intro i low high
      rw [Function.update_of_ne (by omega)]
      exact usable i (by omega) (by omega)
    obtain ⟨after, ran, cleared, kept⟩ := ih later
    refine ⟨after, by simp [resetAllocated, unreserved, unflagged, ran], ?_, ?_⟩
    · intro i low high
      by_cases same : i = p
      · subst same
        rw [kept i (by omega), Function.update_self]
      · rw [cleared i (by omega) (by omega), Function.update_of_ne same]
    · intro i outside
      rw [kept i (by omega), Function.update_of_ne (by omega)]

theorem resetReserved_pages (reserved : ∀ i, p ≤ i → i < p + n → (pages i).pgReserved = true) :
    ∃ after, resetReserved n p pages = some after ∧
      ∀ i, p ≤ i → i < p + n → after i = ⟨0, false, false, 0⟩ := by
  have general : ∃ after, resetReserved n p pages = some after ∧
      (∀ i, p ≤ i → i < p + n → after i = ⟨0, false, false, 0⟩) ∧
      ∀ i, i < p → after i = pages i := by
    induction n generalizing p pages with
    | zero => exact ⟨pages, rfl, by omega, fun _ _ => rfl⟩
    | succ n ih =>
      have later : ∀ i, p + 1 ≤ i → i < p + 1 + n →
          (Function.update pages p ⟨0, false, false, 0⟩ i).pgReserved = true := by
        intro i low high
        rw [Function.update_of_ne (by omega)]
        exact reserved i (by omega) (by omega)
      obtain ⟨after, ran, cleared, kept⟩ := ih later
      refine ⟨after, by simp [resetReserved, reserved p (le_refl _) (by omega), ran], ?_, ?_⟩
      · intro i low high
        by_cases same : i = p
        · subst same
          rw [kept i (by omega), Function.update_self]
        · exact cleared i (by omega) (by omega)
      · intro i below
        rw [kept i (by omega), Function.update_of_ne (by omega)]
  obtain ⟨after, ran, cleared, _⟩ := general
  exact ⟨after, ran, cleared⟩

/-! ## Listing, unlisting and resizing a block -/

variable {lows highs : List Extent} {e : Extent}

/-- A block's entry occurs once in the ring. -/
theorem Listing.once (listed : Listing lo hi pages links (lows ++ e :: highs)) :
    ∀ x ∈ lows ++ highs, x.start ≠ e.start := by
  intro x member same
  have distinct := (List.nodup_cons.mp listed.ring.distinct).2
  rw [linksOf_append, linksOf_cons, List.nodup_middle] at distinct
  refine (List.nodup_cons.mp distinct).1 ?_
  rw [← linksOf_append, ← same, linksOf_mem]
  exact ⟨x, member, rfl⟩

/-- Deleting a block's entry and clearing its flag unlists exactly that block. -/
theorem Listing.unlist (listed : Listing lo hi pages links (lows ++ e :: highs)) :
    Listing lo hi (clearPageProperty pages e.start) (listDel links (.pageLink e.start))
      (lows ++ highs) where
  ring := by
    have ring := listed.ring
    rw [linksOf_append, linksOf_cons] at ring
    rw [linksOf_append]
    exact listDel_node ring
  sized x member := by
    rw [clearPageProperty, Function.update_of_ne (listed.once x member)]
    refine listed.sized x ?_
    simp only [List.mem_append, List.mem_cons] at member ⊢
    tauto
  inside x member := by
    refine listed.inside x ?_
    simp only [List.mem_append, List.mem_cons] at member ⊢
    tauto
  flagged i low high := by
    have before := listed.flagged i low high
    rw [linksOf_mem] at before ⊢
    by_cases same : i = e.start
    · subst same
      simp only [clearPageProperty, Function.update_self, Bool.false_eq_true, false_iff]
      exact fun ⟨x, member, start⟩ => listed.once x member start
    · rw [clearPageProperty, Function.update_of_ne same, before]
      have other : e.start ≠ i := Ne.symm same
      simp only [List.mem_append, List.mem_cons]
      constructor
      · rintro ⟨x, inLow | rfl | inHigh, start⟩
        · exact ⟨x, Or.inl inLow, start⟩
        · exact absurd start other
        · exact ⟨x, Or.inr inHigh, start⟩
      · rintro ⟨x, inLow | inHigh, start⟩
        · exact ⟨x, Or.inl inLow, start⟩
        · exact ⟨x, Or.inr (Or.inr inHigh), start⟩
  usable i low high := by
    have before := listed.usable i low high
    simp only [clearPageProperty, Function.update_apply]
    split <;> simp_all

/-- Marking a page that is in no listed block lists it where its entry is. -/
theorem Listing.enlist (listed : Listing lo hi pages links (lows ++ highs))
    (ring : IsRing after .freeList (linksOf (lows ++ e :: highs)))
    (inside : lo ≤ e.start ∧ e.start < hi) (fresh : ∀ x ∈ lows ++ highs, x.start ≠ e.start) :
    Listing lo hi (markBlock pages e.start e.size) after (lows ++ e :: highs) where
  ring := ring
  sized x member := by
    have member : x = e ∨ x ∈ lows ++ highs := by
      simp only [List.mem_append, List.mem_cons] at member ⊢
      tauto
    rcases member with rfl | old
    · simp [markBlock]
    · rw [markBlock, Function.update_of_ne (fresh x old)]
      exact listed.sized x old
  inside x member := by
    have member : x = e ∨ x ∈ lows ++ highs := by
      simp only [List.mem_append, List.mem_cons] at member ⊢
      tauto
    rcases member with rfl | old
    · exact inside
    · exact listed.inside x old
  flagged i low high := by
    have before := listed.flagged i low high
    rw [linksOf_append, List.mem_append] at before
    rw [linksOf_append, linksOf_cons, List.mem_append, List.mem_cons, Node.pageLink.injEq]
    by_cases same : i = e.start
    · simp [same, markBlock]
    · rw [markBlock, Function.update_of_ne same, before]
      tauto
  usable i low high := by
    have before := listed.usable i low high
    simp only [markBlock, Function.update_apply]
    split <;> simp_all

/-- Writing a listed block's size changes that block's extent only. -/
theorem Listing.resize (listed : Listing lo hi pages links (lows ++ e :: highs)) (size : Nat) :
    Listing lo hi (Function.update pages e.start { pages e.start with property := size }) links
      (lows ++ ⟨e.start, size⟩ :: highs) where
  ring := by simpa [linksOf] using listed.ring
  sized x member := by
    have member : x = ⟨e.start, size⟩ ∨ x ∈ lows ++ highs := by
      simp only [List.mem_append, List.mem_cons] at member ⊢
      tauto
    rcases member with rfl | old
    · simp
    · rw [Function.update_of_ne (listed.once x old)]
      refine listed.sized x ?_
      simp only [List.mem_append, List.mem_cons] at old ⊢
      tauto
  inside x member := by
    simp only [List.mem_append, List.mem_cons] at member
    rcases member with low | rfl | high
    · exact listed.inside x (by simp [low])
    · exact listed.inside e (by simp)
    · exact listed.inside x (by simp [high])
  flagged i low high := by
    have before := listed.flagged i low high
    have entries : linksOf (lows ++ ⟨e.start, size⟩ :: highs) = linksOf (lows ++ e :: highs) := by
      simp [linksOf]
    rw [entries, ← before, Function.update_apply]
    split <;> simp_all
  usable i low high := by
    have before := listed.usable i low high
    rw [Function.update_apply]
    split <;> simp_all

/-! ## Taking pages and merging blocks -/

private theorem clear_mark_comm (apart : q ≠ p) :
    clearPageProperty (markBlock pages p size) q = markBlock (clearPageProperty pages q) p size := by
  simp only [clearPageProperty, markBlock, Function.update_of_ne apart,
    Function.update_of_ne apart.symm]
  exact Function.update_comm apart.symm ..

/-- Taking the first `n` pages of a listed block leaves the rest of it listed. -/
theorem takeBlock_listing (listed : Listing lo hi area.pages area.links (lows ++ e :: highs))
    (whole : Coalesced (lows ++ e :: highs)) (fits : e.stop ≤ hi) (nonzero : 0 < n) :
    Listing lo hi (takeBlock area e.start n).pages (takeBlock area e.start n).links
      (lows ++ (takeFirst e n ++ highs)) := by
  have size := listed.sized e (by simp)
  have within := listed.inside e (by simp)
  have unlisted := listed.unlist
  have ring := listed.ring
  rw [linksOf_append, linksOf_cons] at ring
  have prev := ring.prev_node
  by_cases rest : n < e.size
  · have fresh : ∀ x ∈ lows ++ highs, x.start ≠ e.start + n := by
      obtain ⟨_, right, gap⟩ := coalesced_append.mp whole
      intro x member
      rcases List.mem_append.mp member with low | high
      · have := gap x low e (by simp)
        simp only [Extent.stop] at this
        omega
      · have := (coalesced_cons.mp right).2.2 x high
        simp only [Extent.stop] at this
        omega
    have ring := unlisted.ring
    rw [linksOf_append] at ring
    have absent : Node.pageLink (e.start + n) ∉ .freeList :: (linksOf lows ++ linksOf highs) := by
      simp only [List.mem_cons, reduceCtorEq, false_or, ← linksOf_append, linksOf_mem]
      rintro ⟨x, member, same⟩
      exact fresh x member same
    have added := listAdd_between ring absent
    rw [← prev] at added
    have apart : e.start ≠ e.start + n := by omega
    simp only [takeBlock, size, rest, ↓reduceIte, takeFirst, List.cons_append, List.nil_append,
      clear_mark_comm apart]
    refine unlisted.enlist (e := ⟨e.start + n, e.size - n⟩) ?_ ?_ fresh
    · rw [linksOf_append, linksOf_cons]
      exact added
    · simp only [Extent.stop] at fits ⊢
      omega
  · simpa only [takeBlock, size, rest, ↓reduceIte, takeFirst, List.nil_append] using unlisted

/-- Absorbing the next listed block leaves one block of both sizes. -/
theorem absorb_listing {a b : Extent}
    (listed : Listing lo hi area.pages area.links (lows ++ a :: b :: highs))
    (fits : a.size + b.size < 2 ^ 32) :
    Listing lo hi (absorb area a.start b.start b.size).pages (absorb area a.start b.start b.size).links
      (lows ++ ⟨a.start, a.size + b.size⟩ :: highs) := by
  have size := listed.sized a (by simp)
  have resized := listed.resize (a.size + b.size)
  have split : lows ++ ⟨a.start, a.size + b.size⟩ :: b :: highs =
      (lows ++ [⟨a.start, a.size + b.size⟩]) ++ b :: highs := by simp
  rw [split] at resized
  have unlisted := resized.unlist
  simp only [List.append_assoc, List.cons_append, List.nil_append] at unlisted
  simpa only [absorb, size, uint, Nat.mod_eq_of_lt fits] using unlisted

/-- The forward merge joins the block with the next one when they touch. -/
theorem mergeNext_listing (listed : Listing lo hi area.pages area.links (lows ++ e :: highs))
    (fits : ((lows ++ e :: highs).map Extent.size).sum < 2 ^ 32) :
    Listing lo hi (mergeNext area e.start).pages (mergeNext area e.start).links
      (lows ++ joinNext e highs) ∧ (mergeNext area e.start).nrFree = area.nrFree ∧
      (mergeNext area e.start).npage = area.npage := by
  have size := listed.sized e (by simp)
  have ring := listed.ring
  rw [linksOf_append, linksOf_cons] at ring
  have next := ring.next_node
  cases highs with
  | nil => simpa [mergeNext, listNext, next, joinNext, linksOf] using listed
  | cons high highs =>
    simp only [linksOf_cons, List.cons_append, List.head_cons] at next
    simp only [mergeNext, listNext, next, size, joinNext, Extent.stop,
      listed.sized high (by simp)]
    by_cases touching : e.start + e.size = high.start
    · simp only [touching, ↓reduceIte]
      refine ⟨absorb_listing listed ?_, rfl, rfl⟩
      simp only [List.map_append, List.map_cons, List.sum_append, List.sum_cons] at fits
      omega
    · simpa only [touching, ↓reduceIte, and_self, and_true] using listed

/-- Both merges after an insertion give the block back to the coalesced list. -/
theorem merge_listing (listed : Listing lo hi area.pages area.links (lows ++ e :: highs))
    (fits : ((lows ++ e :: highs).map Extent.size).sum < 2 ^ 32) :
    Listing lo hi (mergeNext (mergePrev area e.start).1 (mergePrev area e.start).2).pages
      (mergeNext (mergePrev area e.start).1 (mergePrev area e.start).2).links
      (giveBack lows e highs) ∧
    (mergeNext (mergePrev area e.start).1 (mergePrev area e.start).2).nrFree = area.nrFree ∧
    (mergeNext (mergePrev area e.start).1 (mergePrev area e.start).2).npage = area.npage := by
  have size := listed.sized e (by simp)
  have ring := listed.ring
  rw [linksOf_append, linksOf_cons] at ring
  have prev := ring.prev_node
  rcases List.eq_nil_or_concat lows with rfl | ⟨before, low, rfl⟩
  · simp only [linksOf, List.map_nil, List.getLast_singleton] at prev
    simp only [mergePrev, listPrev, prev, giveBack, List.getLast?_nil]
    exact mergeNext_listing listed fits
  · simp only [List.concat_eq_append] at listed fits prev ⊢
    have entry : (Node.freeList :: linksOf (before ++ [low])).getLast (by simp) =
        .pageLink low.start := by simp [linksOf]
    rw [entry] at prev
    simp only [mergePrev, listPrev, prev, size, listed.sized low (by simp), giveBack,
      List.getLast?_append, List.getLast?_singleton, Option.some_or, List.dropLast_concat,
      Extent.stop]
    by_cases touching : low.start + low.size = e.start
    · simp only [touching, ↓reduceIte]
      simp only [List.append_assoc, List.cons_append, List.nil_append] at listed fits
      simp only [List.map_append, List.map_cons, List.sum_append, List.sum_cons] at fits
      have merged := absorb_listing listed (by omega)
      have counted : (absorb area low.start e.start e.size).nrFree = area.nrFree ∧
          (absorb area low.start e.start e.size).npage = area.npage := ⟨rfl, rfl⟩
      rw [← counted.1, ← counted.2]
      refine mergeNext_listing merged ?_
      simp only [List.map_append, List.map_cons, List.sum_append, List.sum_cons]
      omega
    · simp only [touching, ↓reduceIte]
      exact mergeNext_listing listed fits

/-! ## Runs of allocations and frees -/

/-- The manager and the pages handed out and not yet given back. -/
structure Heap where
  area : Area
  held : Finset Nat

inductive Call where
  | allocPages (n : Nat)
  | freePages (base n : Nat)

/-- Callers ask for at least one page and give back only pages they hold. -/
def Call.Valid (heap : Heap) : Call → Prop
  | .allocPages n => 1 ≤ n
  | .freePages base n => 1 ≤ n ∧ ∀ i, base ≤ i → i < base + n → i ∈ heap.held

/-- The block given back lies above the last block of a free list that is not empty. -/
def Call.AboveLast (heap : Heap) : Call → Prop
  | .allocPages _ => False
  | .freePages base _ =>
    ∃ last, listPrev heap.area.links .freeList = .pageLink last ∧ last ≤ base

def step (heap : Heap) : Call → Option Heap
  | .allocPages n => (defaultAllocPages heap.area n).map fun (page, area) =>
    match page with
    | none => ⟨area, heap.held⟩
    | some p => ⟨area, heap.held ∪ Finset.Ico p (p + n)⟩
  | .freePages base n => (defaultFreePages heap.area base n).map fun area =>
    ⟨area, heap.held \ Finset.Ico base (base + n)⟩

/-- Every call of the run is valid where it is made. -/
def ValidRun (heap : Heap) : List Call → Prop
  | [] => True
  | call :: calls => call.Valid heap ∧ ∀ after, step heap call = some after → ValidRun after calls

/-- No call of the run gives a block back above every listed block. -/
def NoneAboveLast (heap : Heap) : List Call → Prop
  | [] => True
  | call :: calls =>
    ¬ call.AboveLast heap ∧ ∀ after, step heap call = some after → NoneAboveLast after calls

/-- What the manager promises of the range of `total` pages from `start`. -/
structure Sound (start total : Nat) (heap : Heap) (blocks : List Nat) : Prop where
  /-- `next` and `prev` walk the same circular list in both directions. -/
  ring : IsRing heap.area.links .freeList (blocks.map .pageLink)
  /-- Sorted by address, disjoint and never adjacent. -/
  coalesced : blocks.Pairwise fun a b => a + (heap.area.pages a).property < b
  counted : heap.area.nrFree = (blocks.map fun b => (heap.area.pages b).property).sum
  /-- No page that is handed out lies in a listed block. -/
  unlisted : ∀ i ∈ heap.held, ∀ b ∈ blocks, ¬ (b ≤ i ∧ i < b + (heap.area.pages b).property)
  /-- What the next allocation hands out is not handed out already. -/
  fresh : ∀ n p area, defaultAllocPages heap.area n = some (some p, area) →
    ∀ i, p ≤ i → i < p + n → i ∉ heap.held
  /-- With every page given back, the initial block is the only one. -/
  restored : heap.held = ∅ → blocks = [start] ∧ (heap.area.pages start).property = total ∧
    heap.area.nrFree = total

/-- The manager is sound before the run and after each of its calls, all of
which return. -/
def SoundRun (start total : Nat) (heap : Heap) : List Call → Prop
  | [] => ∃ blocks, Sound start total heap blocks
  | call :: calls => (∃ blocks, Sound start total heap blocks) ∧
    ∃ after, step heap call = some after ∧ SoundRun start total after calls

/-- The invariant: the listed blocks are a coalesced list of exactly the pages
of the range that are not handed out. -/
structure FirstFit (start total : Nat) (heap : Heap) (extents : List Extent) : Prop where
  listed : Listing start (start + total) heap.area.pages heap.area.links extents
  coalesced : Coalesced extents
  counted : heap.area.nrFree = (extents.map Extent.size).sum
  free : ∀ i, Covers extents i ↔ start ≤ i ∧ i < start + total ∧ i ∉ heap.held
  held : ∀ i ∈ heap.held, start ≤ i ∧ i < start + total
  room : start + total ≤ heap.area.npage
  small : total < 2 ^ 32

variable {start total : Nat} {heap : Heap} {extents : List Extent}

/-- Every listed block ends inside the range. -/
theorem FirstFit.stop_le (fit : FirstFit start total heap extents) :
    ∀ e ∈ extents, start ≤ e.start ∧ e.stop ≤ start + total := by
  intro e member
  have positive := fit.coalesced.positive e member
  have low := (fit.free e.start).mp ⟨e, member, Nat.le_refl _, by simp only [Extent.stop]; omega⟩
  have high := (fit.free (e.stop - 1)).mp
    ⟨e, member, by simp only [Extent.Has, Extent.stop]; omega⟩
  simp only [Extent.stop] at high ⊢
  omega

theorem FirstFit.length_lt (fit : FirstFit start total heap extents) :
    extents.length < heap.area.npage + 2 := by
  have := coalesced_length fit.coalesced
  have := coalesced_total fit.coalesced (Nat.le_add_right start total)
    (fun e member => (fit.stop_le e member).1) (fun e member => (fit.stop_le e member).2)
  have := fit.room
  omega

/-- A page that is handed out is no block's first page. -/
theorem FirstFit.unlisted (fit : FirstFit start total heap extents) (out : i ∈ heap.held) :
    Node.pageLink i ∉ linksOf extents := by
  rw [linksOf_mem]
  rintro ⟨e, member, rfl⟩
  have positive := fit.coalesced.positive e member
  exact ((fit.free e.start).mp ⟨e, member, Nat.le_refl _, by
    simp only [Extent.stop]; omega⟩).2.2 out

/-- An allocation either finds no block and changes nothing, or hands out the
first pages of the first block that is large enough. -/
theorem FirstFit.alloc (fit : FirstFit start total heap extents) (nonzero : 1 ≤ n) :
    defaultAllocPages heap.area n = some (none, heap.area) ∨
      ∃ p area after, defaultAllocPages heap.area n = some (some p, area) ∧
        (∀ i, p ≤ i → i < p + n → i ∉ heap.held) ∧
        FirstFit start total ⟨area, heap.held ∪ Finset.Ico p (p + n)⟩ after := by
  by_cases short : heap.area.nrFree < n
  · exact Or.inl (by simp [defaultAllocPages, short, Nat.ne_of_gt nonzero])
  · have found := findBlock_first (n := n) fit.listed.ring.linked fit.listed.sized fit.length_lt
    cases search : extents.find? fun e => decide (n ≤ e.size) with
    | none =>
      left
      simp [defaultAllocPages, short, Nat.ne_of_gt nonzero, found, search]
    | some e =>
      right
      obtain ⟨enough, lows, highs, rfl, _⟩ := List.find?_eq_some_iff_append.mp search
      have enough : n ≤ e.size := of_decide_eq_true enough
      have bounds := fit.stop_le e (by simp)
      have taken := takeBlock_listing (n := n) fit.listed fit.coalesced bounds.2 nonzero
      have unheld : ∀ i, e.start ≤ i → i < e.start + n → i ∉ heap.held := fun i low high =>
        ((fit.free i).mp ⟨e, by simp, low, by simp only [Extent.stop]; omega⟩).2.2
      have size := fit.listed.sized e (by simp)
      refine ⟨e.start, takeBlock heap.area e.start n, lows ++ (takeFirst e n ++ highs), ?_, unheld,
        taken, coalesced_takeFirst fit.coalesced, ?_, ?_, ?_, ?_, fit.small⟩
      · simp [defaultAllocPages, short, Nat.ne_of_gt nonzero, found, search]
      · have counted := fit.counted
        have left : (takeBlock heap.area e.start n).nrFree = heap.area.nrFree - n := by
          simp only [takeBlock]
          split <;> rfl
        rw [left, counted]
        simp only [List.map_append, List.map_cons, List.sum_append, List.sum_cons, takeFirst]
        split <;> simp <;> omega
      · intro i
        rw [covers_take fit.coalesced enough, fit.free i, Finset.mem_union, Finset.mem_Ico]
        tauto
      · intro i member
        rcases Finset.mem_union.mp member with old | new
        · exact fit.held i old
        · have := Finset.mem_Ico.mp new
          simp only [Extent.stop] at bounds
          omega
      · simp only [takeBlock]
        split <;> exact fit.room

/-- `n` pages of the range from `p` on that are not handed out. -/
def FreeBlock (start total : Nat) (held : Finset Nat) (n p : Nat) : Prop :=
  ∀ i, p ≤ i → i < p + n → start ≤ i ∧ i < start + total ∧ i ∉ held

/-- An allocation fails only where there is no block of that many free pages. -/
theorem FirstFit.alloc_none (fit : FirstFit start total heap extents) (nonzero : 1 ≤ n)
    (refused : defaultAllocPages heap.area n = some (none, heap.area)) :
    ¬ ∃ p, FreeBlock start total heap.held n p := by
  rintro ⟨p, block⟩
  obtain ⟨e, member, low, high⟩ := coalesced_run fit.coalesced nonzero
    (fun i above below => (fit.free i).mpr (block i above below))
  have enough : n ≤ e.size := by
    simp only [Extent.stop] at high
    omega
  have short : ¬ heap.area.nrFree < n := by
    have := List.single_le_sum (fun _ _ => Nat.zero_le _) _ (List.mem_map_of_mem (f := Extent.size) member)
    rw [fit.counted]
    omega
  have found := findBlock_first (n := n) fit.listed.ring.linked fit.listed.sized fit.length_lt
  cases search : extents.find? fun e => decide (n ≤ e.size) with
  | none => exact absurd enough (by simpa using List.find?_eq_none.mp search e member)
  | some first => simp [defaultAllocPages, short, Nat.ne_of_gt nonzero, found, search] at refused

/-- Where a held range lies between the listed blocks. -/
structure Gap (lows highs : List Extent) (base n : Nat) : Prop where
  above : ∀ a ∈ lows, a.stop ≤ base
  below : ∀ b ∈ highs, base + n ≤ b.start
  positive : ∀ x ∈ lows ++ highs, 0 < x.size

private theorem Gap.apart (gap : Gap lows highs base n) :
    ∀ x ∈ lows ++ highs, ¬ (base ≤ x.start ∧ x.start < base + n) := by
  intro x member
  have positive := gap.positive x member
  rcases List.mem_append.mp member with low | high
  · have := gap.above x low
    simp only [Extent.stop] at this
    omega
  · have := gap.below x high
    omega

private theorem Gap.fresh (gap : Gap lows highs base n) (nonzero : 1 ≤ n) :
    ∀ x ∈ lows ++ highs, x.start ≠ base := fun x member same =>
  gap.apart x member ⟨by omega, by omega⟩

/-- A range of held pages splits the listed blocks at a gap. -/
theorem FirstFit.gap (fit : FirstFit start total heap extents) (nonzero : 1 ≤ n)
    (out : ∀ i, base ≤ i → i < base + n → i ∈ heap.held) :
    ∃ lows highs, extents = lows ++ highs ∧ Gap lows highs base n := by
  obtain ⟨lows, highs, rfl, low, high⟩ := coalesced_split fit.coalesced base
  refine ⟨lows, highs, rfl, ?_, ?_, fit.coalesced.positive⟩
  · intro a member
    by_contra reaches
    have covered := (fit.free base).mp ⟨a, by simp [member], (low a member).le, by omega⟩
    exact covered.2.2 (out base (le_refl _) (by omega))
  · intro b member
    by_contra inside
    refine fit.unlisted (out b.start (high b member) (by omega)) (linksOf_mem.mpr ⟨b, ?_, rfl⟩)
    simp [member]

/-- Resetting the held pages of a range passes the assertions and leaves the
listed blocks as they are. -/
theorem FirstFit.reset (fit : FirstFit start total heap (lows ++ highs))
    (gap : Gap lows highs base n) (out : ∀ i, base ≤ i → i < base + n → i ∈ heap.held) :
    ∃ pages, resetAllocated n base heap.area.pages = some pages ∧
      Listing start (start + total) pages heap.area.links (lows ++ highs) := by
  have allocated : ∀ i, base ≤ i → i < base + n →
      (heap.area.pages i).pgReserved = false ∧ (heap.area.pages i).pgProperty = false := by
    intro i low high
    obtain ⟨lower, upper⟩ := fit.held i (out i low high)
    have flag := fit.listed.flagged i lower upper
    have := fit.unlisted (out i low high)
    exact ⟨fit.listed.usable i lower upper, by simp_all⟩
  obtain ⟨pages, ran, cleared, kept⟩ := resetAllocated_pages allocated
  refine ⟨pages, ran, fit.listed.ring, ?_, fit.listed.inside, ?_, ?_⟩
  · intro x member
    rw [kept _ (gap.apart x member)]
    exact fit.listed.sized x member
  · intro i lower upper
    by_cases inside : base ≤ i ∧ i < base + n
    · rw [cleared i inside.1 inside.2]
      simp [fit.unlisted (out i inside.1 inside.2)]
    · rw [kept i inside]
      exact fit.listed.flagged i lower upper
  · intro i lower upper
    by_cases inside : base ≤ i ∧ i < base + n
    · rw [cleared i inside.1 inside.2]
    · rw [kept i inside]
      exact fit.listed.usable i lower upper

/-- The insertion puts the entry in the gap unless it would come last. -/
theorem FirstFit.insert (fit : FirstFit start total heap (lows ++ highs))
    (gap : Gap lows highs base n) (nonzero : 1 ≤ n)
    (place : ¬ Call.AboveLast heap (.freePages base n)) :
    ∃ links, insertBlock heap.area.npage heap.area.links base = some links ∧
      IsRing links .freeList (linksOf (lows ++ ⟨base, n⟩ :: highs)) := by
  have ring := fit.listed.ring
  rw [linksOf_append] at ring
  have fresh : Node.pageLink base ∉ .freeList :: (linksOf lows ++ linksOf highs) := by
    simp only [List.mem_cons, reduceCtorEq, false_or, ← linksOf_append, linksOf_mem]
    exact fun ⟨x, member, same⟩ => gap.fresh nonzero x member same
  have low : ∀ e ∈ lows, e.start ≤ base := fun e member =>
    Nat.le_trans (Nat.le_add_right ..) (gap.above e member)
  rw [linksOf_append, linksOf_cons]
  cases highs with
  | nil =>
    have empty : lows = [] := by
      rcases List.eq_nil_or_concat lows with none | ⟨before, last, rfl⟩
      · exact none
      · refine absurd ?_ place
        have prev := fit.listed.ring.prev_head
        simp only [linksOf, List.append_nil, List.concat_eq_append, List.map_append,
          List.map_cons, List.map_nil] at prev
        exact ⟨last.start, by simpa [listPrev] using prev, low last (by simp)⟩
    subst empty
    have lone := (listEmpty_iff ring).mpr rfl
    refine ⟨listAdd heap.area.links .freeList (.pageLink base), ?_, listAdd_between ring fresh⟩
    simp only [insertBlock, lone, ↓reduceIte]
  | cons next highs =>
    have busy : ¬ listEmpty heap.area.links .freeList := by
      rw [listEmpty_iff ring]
      simp [linksOf]
    have length := fit.length_lt
    have nextAbove := gap.below next (by simp)
    refine ⟨listAddBefore heap.area.links (.pageLink next.start) (.pageLink base), ?_,
      listAddBefore_node ring fresh⟩
    simp only [insertBlock, busy, Bool.false_eq_true, ↓reduceIte]
    refine insertLoop_below ring.linked low (by omega) ?_
    simp only [List.length_append, List.length_cons] at length
    omega

/-- The listed blocks with a held range given back, coalesced and covering
exactly the pages that are then not handed out. -/
theorem FirstFit.given (fit : FirstFit start total heap (lows ++ highs))
    (gap : Gap lows highs base n) (nonzero : 1 ≤ n)
    (out : ∀ i, base ≤ i → i < base + n → i ∈ heap.held) :
    Coalesced (giveBack lows ⟨base, n⟩ highs) ∧
      ∀ i, Covers (giveBack lows ⟨base, n⟩ highs) i ↔
        start ≤ i ∧ i < start + total ∧ i ∉ heap.held \ Finset.Ico base (base + n) := by
  refine ⟨coalesced_giveBack fit.coalesced nonzero gap.above gap.below, ?_⟩
  intro i
  have range (low : base ≤ i) (high : i < base + n) := fit.held i (out i low high)
  rw [covers_giveBack, fit.free i, Finset.mem_sdiff, Finset.mem_Ico]
  simp only [Extent.Has, Extent.stop]
  tauto

/-- Extents covering only pages of the range have no more pages than it has. -/
theorem FirstFit.given_sum (coalesced : Coalesced extents)
    (covered : ∀ i, Covers extents i → start ≤ i ∧ i < start + total) :
    (extents.map Extent.size).sum ≤ total := by
  have ends : ∀ e ∈ extents, start ≤ e.start ∧ e.stop ≤ start + total := by
    intro e member
    have positive := coalesced.positive e member
    have first := covered e.start ⟨e, member, Nat.le_refl _, by simp only [Extent.stop]; omega⟩
    have last := covered (e.stop - 1)
      ⟨e, member, by simp only [Extent.Has, Extent.stop]; omega⟩
    simp only [Extent.stop] at last ⊢
    omega
  have := coalesced_total coalesced (Nat.le_add_right start total)
    (fun e member => (ends e member).1) (fun e member => (ends e member).2)
  omega

/-- Freeing held pages below some listed block, or into an empty list, returns
and keeps the invariant. -/
theorem FirstFit.free_pages (fit : FirstFit start total heap extents) (nonzero : 1 ≤ n)
    (out : ∀ i, base ≤ i → i < base + n → i ∈ heap.held)
    (place : ¬ Call.AboveLast heap (.freePages base n)) :
    ∃ area after, defaultFreePages heap.area base n = some area ∧
      FirstFit start total ⟨area, heap.held \ Finset.Ico base (base + n)⟩ after := by
  obtain ⟨lows, highs, rfl, gap⟩ := fit.gap nonzero out
  obtain ⟨pages, reset, listed⟩ := fit.reset gap out
  obtain ⟨links, inserted, ring⟩ := fit.insert gap nonzero place
  obtain ⟨coalesced, covered⟩ := fit.given gap nonzero out
  have first := fit.held base (out base (le_refl _) (by omega))
  have sum := @sum_giveBack lows highs ⟨base, n⟩
  have fits := FirstFit.given_sum coalesced
    (fun i inside => ⟨((covered i).mp inside).1, ((covered i).mp inside).2.1⟩)
  have small := fit.small
  have counted := fit.counted
  simp only at sum
  have narrow : uint n = n := Nat.mod_eq_of_lt (by omega)
  have wide : uint (heap.area.nrFree + n) = heap.area.nrFree + n := Nat.mod_eq_of_lt (by omega)
  let enlarged : Area :=
    { heap.area with
      pages := markBlock pages base n
      links := links
      nrFree := heap.area.nrFree + n }
  have relisted : Listing start (start + total) enlarged.pages enlarged.links
      (lows ++ ⟨base, n⟩ :: highs) := listed.enlist ring first (gap.fresh nonzero)
  have merged := merge_listing relisted (by
    simp only [List.map_append, List.map_cons, List.sum_append, List.sum_cons] at sum ⊢
    omega)
  refine ⟨mergeNext (mergePrev enlarged base).1 (mergePrev enlarged base).2, _, ?_, merged.1,
    coalesced, ?_, covered, ?_, ?_, small⟩
  · simp only [defaultFreePages, Nat.ne_of_gt nonzero, ↓reduceIte, reset, inserted, narrow, wide,
      Option.bind_eq_bind, Option.bind_some]
    rfl
  · exact merged.2.1.trans (by rw [sum, ← counted])
  · exact fun i member => fit.held i (Finset.mem_sdiff.mp member).1
  · exact merged.2.2 ▸ fit.room

/-- The invariant gives every promise of the manager. -/
theorem FirstFit.sound (fit : FirstFit start total heap extents) (nonempty : 0 < total) :
    Sound start total heap (extents.map Extent.start) where
  ring := by
    rw [List.map_map]
    exact fit.listed.ring
  coalesced := by
    rw [List.pairwise_map]
    refine fit.coalesced.apart.imp_of_mem ?_
    intro a b member _ gap
    rw [fit.listed.sized a member]
    exact gap
  counted := by
    rw [fit.counted, List.map_map]
    exact congrArg List.sum (List.map_congr_left fun e member => (fit.listed.sized e member).symm)
  unlisted := by
    rintro i out b member ⟨low, high⟩
    obtain ⟨e, listed, rfl⟩ := List.mem_map.mp member
    rw [fit.listed.sized e listed] at high
    exact ((fit.free i).mp ⟨e, listed, low, high⟩).2.2 out
  fresh := by
    intro n p area ran
    have nonzero : 1 ≤ n := by
      by_contra zero
      simp [defaultAllocPages, show n = 0 by omega] at ran
    rcases fit.alloc nonzero with none | ⟨q, _, _, granted, unheld, _⟩
    · simp [none] at ran
    · rw [granted] at ran
      cases ran
      exact unheld
  restored := by
    intro back
    have whole : extents = [⟨start, total⟩] := coalesced_interval fit.coalesced nonempty (by
      intro i
      rw [fit.free i, back]
      simp)
    subst whole
    exact ⟨rfl, fit.listed.sized ⟨start, total⟩ (by simp), by simpa using fit.counted⟩

/-- A call that does not give a block back above every listed block returns
and keeps the invariant. -/
theorem FirstFit.call_keeps (fit : FirstFit start total heap extents) (valid : call.Valid heap)
    (place : ¬ call.AboveLast heap) :
    ∃ heap' after, step heap call = some heap' ∧ FirstFit start total heap' after := by
  cases call with
  | allocPages n =>
    rcases fit.alloc valid with none | ⟨p, area, after, granted, _, fit'⟩
    · exact ⟨heap, extents, by simp [step, none], fit⟩
    · exact ⟨_, after, by simp [step, granted], fit'⟩
  | freePages base n =>
    obtain ⟨area, after, freed, fit'⟩ := fit.free_pages valid.1 valid.2 place
    exact ⟨_, after, by simp [step, freed], fit'⟩

/-- Giving a block back above every listed block leaves it its own
predecessor, so the free list is no ring any more. -/
theorem FirstFit.above_last_breaks (fit : FirstFit start total heap extents)
    (valid : call.Valid heap) (above : call.AboveLast heap) (ran : step heap call = some after) :
    ¬ ∃ blocks, Sound start total after blocks := by
  cases call with
  | allocPages n => exact above.elim
  | freePages base n =>
    obtain ⟨nonzero, out⟩ := valid
    obtain ⟨last, atEnd, high⟩ := above
    have prev := fit.listed.ring.prev_head
    have nonempty : extents ≠ [] := by
      rintro rfl
      simp [listPrev, prev, linksOf] at atEnd
    obtain ⟨before, final, rfl⟩ := (List.eq_nil_or_concat extents).resolve_left nonempty
    simp only [List.concat_eq_append] at fit prev nonempty
    have lastStart : final.start = last := by
      simpa [listPrev, prev, linksOf] using atEnd
    obtain ⟨lows, highs, split, gap⟩ := fit.gap nonzero out
    have passed : ∀ e ∈ before ++ [final], e.start < base := by
      have fresh := gap.fresh nonzero
      rw [← split] at fresh
      have atLast := fresh final (by simp)
      intro e member
      rcases List.mem_append.mp member with earlier | isFinal
      · have := (coalesced_append.mp fit.coalesced).2.2 e earlier final (by simp)
        simp only [Extent.stop] at this
        omega
      · cases List.mem_singleton.mp isFinal
        omega
    rw [split] at fit nonempty passed
    have busy : ¬ listEmpty heap.area.links .freeList := by
      rw [listEmpty_iff fit.listed.ring]
      simpa [linksOf] using nonempty
    obtain ⟨pages, reset, _⟩ := fit.reset gap out
    have small := fit.small
    have range := fit.held (base + n - 1) (out _ (by omega) (by omega))
    have narrow : uint n = n := Nat.mod_eq_of_lt (by
      have := fit.held base (out base (le_refl _) (by omega))
      omega)
    simp only [step, defaultFreePages, Nat.ne_of_gt nonzero, ↓reduceIte, reset,
      insertBlock, busy, Bool.false_eq_true, narrow, Option.bind_eq_bind, Option.bind_some,
      Option.map_eq_some_iff] at ran
    obtain ⟨area, ran, rfl⟩ := ran
    obtain ⟨links, inserted, ran⟩ := Option.bind_eq_some_iff.mp ran
    obtain ⟨tail, itself, onward⟩ := insertLoop_above nonempty fit.listed.ring.linked passed inserted
    -- neither merge moves a link: the block's predecessor is itself and nothing follows it
    have unmerged : base + (markBlock pages base n base).property ≠ base := by
      simp only [markBlock, Function.update_self]
      omega
    simp only [mergePrev, listPrev, itself, unmerged, ↓reduceIte, mergeNext, listNext, onward,
      Option.pure_def, Option.some.injEq] at ran
    subst ran
    rintro ⟨blocks, sound⟩
    have ring := sound.ring
    have entry := ring.prev_head
    rw [tail] at entry
    have member : Node.pageLink base ∈ blocks.map Node.pageLink := by
      have member := List.getLast_mem (l := Node.freeList :: blocks.map Node.pageLink) (by simp)
      rw [← entry] at member
      simpa using member
    exact ring.prev_ne_self member itself

/-- From any state with the invariant, a valid run is sound exactly when none
of its calls gives a block back above every listed block. -/
theorem FirstFit.run_iff (fit : FirstFit start total heap extents) (nonempty : 0 < total)
    (valid : ValidRun heap calls) : SoundRun start total heap calls ↔ NoneAboveLast heap calls := by
  induction calls generalizing heap extents with
  | nil => exact ⟨fun _ => trivial, fun _ => ⟨_, fit.sound nonempty⟩⟩
  | cons call calls ih =>
    constructor
    · rintro ⟨_, after, ran, later⟩
      have place : ¬ call.AboveLast heap := by
        intro above
        refine fit.above_last_breaks valid.1 above ran ?_
        cases calls with
        | nil => exact later
        | cons _ _ => exact later.1
      obtain ⟨after', extents', ran', fit'⟩ := fit.call_keeps valid.1 place
      refine ⟨place, fun final ran'' => ?_⟩
      rw [ran', Option.some.injEq] at ran ran''
      subst ran ran''
      exact (ih fit' (valid.2 _ ran')).mp later
    · rintro ⟨place, later⟩
      obtain ⟨after, extents', ran, fit'⟩ := fit.call_keeps valid.1 place
      exact ⟨⟨_, fit.sound nonempty⟩, after, ran, (ih fit' (valid.2 _ ran)).mpr (later _ ran)⟩

/-! ## From `page_init` on -/

/-- Adding a range to an empty free list lists it as one block. -/
theorem initMemmap_listed (reserved : ∀ i, base ≤ i → i < base + n → (area.pages i).pgReserved = true)
    (nonzero : 0 < n) :
    ∃ booted, defaultInitMemmap (defaultInit area) base n = some booted ∧
      Listing base (base + n) booted.pages booted.links [⟨base, uint n⟩] ∧
      booted.nrFree = uint n ∧ booted.npage = area.npage := by
  obtain ⟨pages, reset, cleared⟩ := resetReserved_pages reserved
  let linked := listAdd (defaultInit area).links .freeList (.pageLink base)
  have ring : IsRing (defaultInit area).links .freeList ([] ++ []) := listInit_ring
  have lone := (listEmpty_iff ring).mpr rfl
  have blank : Listing base (base + n) pages (defaultInit area).links ([] ++ []) := by
    refine ⟨by simpa [linksOf] using ring, by simp, by simp, ?_, ?_⟩
    · intro i low high
      simp [cleared i low high, linksOf]
    · intro i low high
      simp [cleared i low high]
  have added : IsRing linked .freeList (linksOf ([] ++ ⟨base, uint n⟩ :: [])) :=
    listAdd_between ring (by simp)
  have enlisted : Listing base (base + n) (markBlock pages base (uint n)) linked
      ([] ++ ⟨base, uint n⟩ :: []) :=
    blank.enlist added (by simp only; omega) (by simp)
  refine ⟨{ area with
      pages := markBlock pages base (uint n)
      links := linked
      nrFree := uint n }, ?_, enlisted, rfl, rfl⟩
  have same : (defaultInit area).pages = area.pages := rfl
  simp only [defaultInitMemmap, Nat.ne_of_gt nonzero, ↓reduceIte, same, reset, insertBlock, lone,
    Option.bind_eq_bind, Option.bind_some, Option.pure_def]
  simp [defaultInit, linked]

/-- One listed block over the range is the invariant with nothing handed out. -/
theorem initial_fit (listed : Listing base (base + n) area.pages area.links [⟨base, uint n⟩])
    (count : area.nrFree = uint n) (room : base + n ≤ area.npage) (positive : 0 < uint n) :
    FirstFit base (uint n) ⟨area, ∅⟩ [⟨base, uint n⟩] := by
  have truncated : uint n ≤ n := Nat.mod_le ..
  refine ⟨⟨listed.ring, listed.sized, by simp [positive], ?_, ?_⟩, ?_, by simpa using count, ?_,
    by simp, by simp only; omega, Nat.mod_lt _ (Nat.two_pow_pos _)⟩
  · exact fun i low high => listed.flagged i low (by omega)
  · exact fun i low high => listed.usable i low (by omega)
  · exact coalesced_cons.mpr ⟨positive, coalesced_nil, by simp⟩
  · intro i
    simp [Extent.Has, Extent.stop]

/-- A range whose page count does not fit `unsigned int` in any page has an
empty block listed, and no call changes anything. -/
theorem empty_range_run (listed : Listing lo hi area.pages area.links [⟨base, 0⟩])
    (count : area.nrFree = 0) (valid : ValidRun ⟨area, ∅⟩ calls) :
    SoundRun base 0 ⟨area, ∅⟩ calls ∧ NoneAboveLast ⟨area, ∅⟩ calls := by
  have sound : Sound base 0 ⟨area, ∅⟩ [base] := by
    have size := listed.sized ⟨base, 0⟩ (by simp)
    refine ⟨by simpa [linksOf] using listed.ring, by simp, by simpa [size] using count, by simp,
      by simp, fun _ => ⟨rfl, size, count⟩⟩
  induction calls with
  | nil => exact ⟨⟨_, sound⟩, trivial⟩
  | cons call calls ih =>
    cases call with
    | allocPages n =>
      have nonzero : 1 ≤ n := valid.1
      have ran : step ⟨area, ∅⟩ (.allocPages n) = some ⟨area, ∅⟩ := by
        have short : area.nrFree < n := by omega
        simp [step, defaultAllocPages, Nat.ne_of_gt nonzero, short]
      obtain ⟨later, none⟩ := ih (valid.2 _ ran)
      refine ⟨⟨⟨_, sound⟩, _, ran, later⟩, fun above => above.elim, fun after ran' => ?_⟩
      rw [ran, Option.some.injEq] at ran'
      exact ran' ▸ none
    | freePages start n =>
      obtain ⟨nonzero, out⟩ := valid.1
      exact absurd (out start (le_refl _) (by omega)) (by simp)

/-- **First fit.** Starting from `page_init`'s one range of any size, a run of
allocations and frees of held pages is sound after every call exactly when no
call gives a block back above every block of a free list that is not empty. -/
theorem first_fit_sound_iff
    (reserved : ∀ i, base ≤ i → i < base + n → (area.pages i).pgReserved = true)
    (room : base + n ≤ area.npage) (nonzero : 0 < n) :
    ∃ booted, defaultInitMemmap (defaultInit area) base n = some booted ∧
      ∀ calls, ValidRun ⟨booted, ∅⟩ calls →
        (SoundRun base (uint n) ⟨booted, ∅⟩ calls ↔ NoneAboveLast ⟨booted, ∅⟩ calls) := by
  obtain ⟨booted, ran, listed, count, npage⟩ := initMemmap_listed reserved nonzero
  refine ⟨booted, ran, fun calls valid => ?_⟩
  rcases Nat.eq_zero_or_pos (uint n) with zero | positive
  · rw [zero] at listed count ⊢
    obtain ⟨sound, none⟩ := empty_range_run listed count valid
    exact ⟨fun _ => none, fun _ => sound⟩
  · exact (initial_fit listed count (npage ▸ room) positive).run_iff positive valid

/-- Two reserved pages, as `page_init` leaves them. -/
def twoPages : Area where
  npage := 2
  pages _ := ⟨0, true, false, 0⟩
  links := ⟨id, id⟩
  nrFree := 0

private theorem twoPages_reserved (i : Nat) (_ : 0 ≤ i) (_ : i < 0 + 2) :
    (twoPages.pages i).pgReserved = true := rfl

theorem first_fit_two_pages :
    ∃ booted, defaultInitMemmap (defaultInit twoPages) 0 2 = some booted ∧
      ∀ calls, ValidRun ⟨booted, ∅⟩ calls →
        (SoundRun 0 (uint 2) ⟨booted, ∅⟩ calls ↔ NoneAboveLast ⟨booted, ∅⟩ calls) :=
  first_fit_sound_iff twoPages_reserved (by decide) (by decide)

/-- Both pages are handed out and given back in ascending order. -/
def ascendingFrees : List Call :=
  [.allocPages 1, .allocPages 1, .freePages 0 1, .freePages 1 1]

/-- The second of two ascending frees breaks the free list. -/
theorem ascending_frees_unsound :
    ∃ booted, defaultInitMemmap (defaultInit twoPages) 0 2 = some booted ∧
      ValidRun ⟨booted, ∅⟩ ascendingFrees ∧ ¬ SoundRun 0 2 ⟨booted, ∅⟩ ascendingFrees := by
  obtain ⟨booted, ran, listed, count, npage⟩ :=
    initMemmap_listed twoPages_reserved (by decide)
  have fit := initial_fit listed count (by simp [npage, twoPages]) (by decide)
  cases ran
  suffices runs : ValidRun ⟨_, ∅⟩ ascendingFrees ∧ ¬ NoneAboveLast ⟨_, ∅⟩ ascendingFrees from
    ⟨_, rfl, runs.1, fun sound => runs.2 ((fit.run_iff (by decide) runs.1).mp sound)⟩
  constructor
  · refine ⟨le_refl 1, ?_⟩
    rintro _ ⟨⟩
    refine ⟨le_refl 1, ?_⟩
    rintro _ ⟨⟩
    refine ⟨⟨le_refl 1, fun i low high => ?_⟩, ?_⟩
    · obtain rfl : i = 0 := by omega
      decide
    rintro _ ⟨⟩
    refine ⟨⟨le_refl 1, fun i low high => ?_⟩, ?_⟩
    · obtain rfl : i = 1 := by omega
      decide
    rintro _ ⟨⟩
    trivial
  · intro none
    exact (((none.2 _ rfl).2 _ rfl).2 _ rfl).1 ⟨0, rfl, by decide⟩

end Ucore.DefaultPmm
