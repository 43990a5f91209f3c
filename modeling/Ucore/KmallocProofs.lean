import Ucore.Kmalloc
import Ucore.Extents

/-! The free list of the heap and what its two operations do to it. Giving a
block back links it in and joins it with a neighbour that it touches; taking one
cuts it from the front of a chunk. Between the two steps of `slob_free` a chunk may
touch the one before it at the seams only. -/
namespace Ucore.KmallocProofs
open Kmalloc Extents

variable {π : Type} {heap : Heap π} {chunks seams : Finset Nat} {b cur prev a : Nat}

/-- The units of these chunks. -/
def total (heap : Heap π) (chunks : Finset Nat) : Nat := ∑ c ∈ chunks, heap.units c

/-- The byte `i` lies in one of these chunks. -/
def Covered (heap : Heap π) (chunks : Finset Nat) (i : Nat) : Prop :=
  ∃ c ∈ chunks, c ≤ i ∧ i < c + slobUnit * heap.units c

/-- The chunks are the nodes of the list, in the order of their addresses, disjoint, and
touch no other chunk but at the seams. -/
structure Listed (heap : Heap π) (chunks seams : Finset Nat) : Prop where
  ring : SortedRing heap.next chunks
  positive : ∀ c ∈ chunks, 0 < heap.units c
  apart : ∀ c ∈ chunks, ∀ d ∈ chunks, c < d → c + slobUnit * heap.units c ≤ d ∧
    (d ∉ seams → c + slobUnit * heap.units c ≠ d)

/-- The heap with `b` linked in behind `cur`. -/
def inserted (heap : Heap π) (b cur : Nat) : Heap π :=
  { heap with next := Function.update (Function.update heap.next b (heap.next cur)) cur b }

/-- The heap with `x` joined with what follows it. -/
def merged (heap : Heap π) (x : Nat) : Heap π :=
  { heap with
    units := Function.update heap.units x (heap.units x + heap.units (heap.next x))
    next := Function.update heap.next x (heap.next (heap.next x)) }

/-- The block at `b` shares no byte with a chunk. -/
def Outside (heap : Heap π) (chunks : Finset Nat) (b : Nat) : Prop :=
  ∀ c ∈ chunks, c + slobUnit * heap.units c ≤ b ∨ b + slobUnit * heap.units b ≤ c

namespace Listed

theorem inserted (listed : Listed heap chunks ∅) (fresh : b ∉ chunks) (positive : 0 < heap.units b)
    (outside : Outside heap chunks b) (member : cur ∈ chunks) (place : Between heap.next cur b) :
    Listed (KmallocProofs.inserted heap b cur) (insert b chunks) {b, heap.next cur} := by
  refine ⟨listed.ring.insert fresh member place, ?_, ?_⟩
  · intro c inside
    rcases Finset.mem_insert.mp inside with rfl | old
    · exact positive
    · exact listed.positive c old
  · intro c inside d also below
    rw [show (KmallocProofs.inserted heap b cur).units = heap.units from rfl]
    rcases Finset.mem_insert.mp inside with rfl | old <;> rcases Finset.mem_insert.mp also with rfl | other
    · exact absurd below (lt_irrefl _)
    · have far := outside d other
      refine ⟨by omega, fun notSeam => ?_⟩
      have notNext : d ≠ heap.next cur := by
        rintro rfl
        simp at notSeam
      have around := listed.ring.step cur member d other
      have onward := outside (heap.next cur) (listed.ring.closed cur member)
      unfold Between at place
      omega
    · have far := outside c old
      exact ⟨by omega, fun notSeam => absurd (Finset.mem_insert_self _ _) notSeam⟩
    · have apart := listed.apart c old d other below
      exact ⟨apart.1, fun _ => apart.2 (Finset.notMem_empty _)⟩

/-- Where a chunk does not touch the next one there is no seam. -/
theorem settle (listed : Listed heap chunks seams) (member : cur ∈ chunks)
    (gap : cur + slobUnit * heap.units cur ≠ heap.next cur) : Listed heap chunks (seams.erase (heap.next cur)) := by
  refine ⟨listed.ring, listed.positive, fun c inside d also below => ?_⟩
  have apart := listed.apart c inside d also below
  refine ⟨apart.1, fun notSeam touches => ?_⟩
  by_cases here : d = heap.next cur
  · subst here
    have around := listed.ring.step cur member c inside
    rcases eq_or_ne c cur with rfl | other
    · exact gap touches
    · have before := listed.apart c inside cur member
      have positive := listed.positive cur member
      unfold slobUnit at *
      omega
  · exact apart.2 (fun seam => notSeam (Finset.mem_erase.mpr ⟨here, seam⟩)) touches

theorem merged (listed : Listed heap chunks seams) (member : cur ∈ chunks)
    (touches : cur + slobUnit * heap.units cur = heap.next cur) :
    Listed (KmallocProofs.merged heap cur) (chunks.erase (heap.next cur)) (seams.erase (heap.next cur)) := by
  have own := listed.positive cur member
  have ascends : cur < heap.next cur := by
    unfold slobUnit at touches
    omega
  have onward := listed.ring.closed cur member
  refine ⟨listed.ring.erase member rfl ascends.ne, fun c inside => ?_, fun c inside d also below => ?_⟩
  · have old := listed.positive c (Finset.mem_of_mem_erase inside)
    by_cases here : c = cur
    · subst here
      simp only [KmallocProofs.merged, Function.update_self]
      omega
    · simpa [KmallocProofs.merged, here] using old
  · obtain ⟨notNext, inside⟩ := Finset.mem_erase.mp inside
    obtain ⟨notNextD, inD⟩ := Finset.mem_erase.mp also
    by_cases here : c = cur
    · subst here
      simp only [KmallocProofs.merged, Function.update_self]
      have around := listed.ring.step c member d inD
      have apart := listed.apart (heap.next c) onward d inD (by omega)
      refine ⟨by rw [Nat.mul_add]; omega, fun notSeam => ?_⟩
      have strict := apart.2 fun seam => notSeam (Finset.mem_erase.mpr ⟨notNextD, seam⟩)
      rw [Nat.mul_add]
      omega
    · have apart := listed.apart c inside d inD below
      simp only [KmallocProofs.merged, Function.update_of_ne here]
      exact ⟨apart.1, fun notSeam => apart.2 fun seam => notSeam (Finset.mem_erase.mpr ⟨notNextD, seam⟩)⟩

end Listed

/-! ## What is covered -/

theorem covered_inserted (i : Nat) :
    Covered (inserted heap b cur) (insert b chunks) i ↔
      (b ≤ i ∧ i < b + slobUnit * heap.units b) ∨ Covered heap chunks i := by
  simp [Covered, inserted]

theorem total_inserted (fresh : b ∉ chunks) :
    total (inserted heap b cur) (insert b chunks) = total heap chunks + heap.units b := by
  simp [total, inserted, Finset.sum_insert fresh, Nat.add_comm]

theorem covered_merged (member : cur ∈ chunks) (onward : heap.next cur ∈ chunks)
    (touches : cur + slobUnit * heap.units cur = heap.next cur) (ascends : cur ≠ heap.next cur) (i : Nat) :
    Covered (merged heap cur) (chunks.erase (heap.next cur)) i ↔ Covered heap chunks i := by
  constructor
  · rintro ⟨c, inside, low, high⟩
    obtain ⟨-, old⟩ := Finset.mem_erase.mp inside
    by_cases here : c = cur
    · subst here
      simp only [merged, Function.update_self, Nat.mul_add] at high
      by_cases first : i < c + slobUnit * heap.units c
      · exact ⟨c, old, low, first⟩
      · exact ⟨heap.next c, onward, by omega, by omega⟩
    · simp only [merged, Function.update_of_ne here] at high
      exact ⟨c, old, low, high⟩
  · rintro ⟨c, inside, low, high⟩
    by_cases here : c = cur ∨ c = heap.next cur
    · refine ⟨cur, Finset.mem_erase.mpr ⟨ascends, member⟩, ?_, ?_⟩
      · rcases here with rfl | rfl <;> omega
      · simp only [merged, Function.update_self, Nat.mul_add]
        rcases here with rfl | rfl <;> omega
    · obtain ⟨notCur, notNext⟩ := not_or.mp here
      refine ⟨c, Finset.mem_erase.mpr ⟨notNext, inside⟩, low, ?_⟩
      simpa [merged, notCur] using high

theorem total_merged (member : cur ∈ chunks) (onward : heap.next cur ∈ chunks) (ascends : cur ≠ heap.next cur) :
    total (merged heap cur) (chunks.erase (heap.next cur)) = total heap chunks := by
  have kept : cur ∈ chunks.erase (heap.next cur) := Finset.mem_erase.mpr ⟨ascends, member⟩
  have others : ∑ c ∈ (chunks.erase (heap.next cur)).erase cur, (merged heap cur).units c =
      ∑ c ∈ (chunks.erase (heap.next cur)).erase cur, heap.units c :=
    Finset.sum_congr rfl fun c inside => by simp [merged, Finset.ne_of_mem_erase inside]
  unfold total
  rw [← Finset.add_sum_erase _ _ onward, ← Finset.add_sum_erase _ _ kept, ← Finset.add_sum_erase _ heap.units kept, others]
  simp only [merged, Function.update_self]
  omega

/-! ## `slob_free` -/

/-- The heap with `x` joined with what follows it, if it touches it. -/
def joined (heap : Heap π) (x : Nat) : Heap π :=
  if x + slobUnit * heap.units x = heap.next x then merged heap x else heap

/-- What `slob_free` does behind `cur` is one link and two joins. -/
theorem link_eq (notCur : cur ≠ b) (notNext : heap.next cur ≠ b)
    (apart : b + slobUnit * heap.units b = heap.next cur → heap.next cur ≠ cur) :
    linkBefore (linkBehind heap b cur) b cur = joined (joined (inserted heap b cur) b) cur := by
  have nextB : (inserted heap b cur).next b = heap.next cur := by simp [inserted, notCur.symm]
  have nextCur : (inserted heap b cur).next cur = b := by simp [inserted]
  by_cases after : b + slobUnit * heap.units b = heap.next cur
  · have far := apart after
    have units : (merged (inserted heap b cur) b).units cur = heap.units cur := by simp [merged, inserted, notCur]
    have next : (merged (inserted heap b cur) b).next cur = b := by simp [merged, inserted, notCur]
    rw [show joined (inserted heap b cur) b = merged (inserted heap b cur) b from if_pos (after.trans nextB.symm),
      joined, units, next, linkBehind, if_pos after, linkBefore]
    simp only [Function.update_of_ne notCur, Function.update_self]
    split_ifs <;> simp only [merged, inserted, Heap.mk.injEq, and_true]
    all_goals
      constructor
      all_goals
        funext x
        grind [Function.update_apply]
  · have units : (inserted heap b cur).units cur = heap.units cur := rfl
    rw [show joined (inserted heap b cur) b = inserted heap b cur from if_neg fun same => after (same.trans nextB),
      joined, units, nextCur, linkBehind, if_neg after, linkBefore]
    simp only [Function.update_self]
    split_ifs <;> simp only [merged, inserted, Heap.mk.injEq, and_true]
    constructor
    all_goals
      funext x
      grind [Function.update_apply]

/-- How far `slob_free` has come with the block at `b` from `base` and its chunks: the
block is in the list, which still has `arena` as it was. -/
structure Grown (base : Heap π) (old : Finset Nat) (b arena : Nat) (heap : Heap π) (chunks seams : Finset Nat) :
    Prop where
  listed : Listed heap chunks seams
  total : total heap chunks = total base old + base.units b
  covered : ∀ i, Covered heap chunks i ↔ (b ≤ i ∧ i < b + slobUnit * base.units b) ∨ Covered base old i
  within : chunks ⊆ insert b old
  frame : ∀ x, x ∉ old → x ≠ b → heap.units x = base.units x
  rooted : arena ∈ chunks ∧ heap.units arena = base.units arena
  large : ∃ c ∈ chunks, base.units b ≤ heap.units c
  bigblocks : heap.bigblocks = base.bigblocks
  pages : heap.pages = base.pages

theorem Grown.joined {base : Heap π} {old : Finset Nat} {arena x : Nat} (grown : Grown base old b arena heap chunks seams)
    (member : x ∈ chunks) (notArena : x + slobUnit * heap.units x = heap.next x → x ≠ arena ∧ heap.next x ≠ arena) :
    ∃ chunks', Grown base old b arena (joined heap x) chunks' (seams.erase (heap.next x)) ∧
      (∀ c ∈ chunks, c ≠ heap.next x → c ∈ chunks') ∧ (joined heap x).slobfree = heap.slobfree := by
  by_cases touches : x + slobUnit * heap.units x = heap.next x
  · have positive := grown.listed.positive x member
    have ascends : x ≠ heap.next x := by
      unfold slobUnit at touches
      omega
    have onward := grown.listed.ring.closed x member
    obtain ⟨notX, notNext⟩ := notArena touches
    rw [KmallocProofs.joined, if_pos touches]
    refine ⟨chunks.erase (heap.next x), ⟨grown.listed.merged member touches, ?_, fun i => ?_, ?_, ?_, ⟨?_, ?_⟩, ?_, ?_, ?_⟩,
      fun c inside other => Finset.mem_erase.mpr ⟨other, inside⟩, rfl⟩
    · rw [total_merged member onward ascends, grown.total]
    · rw [covered_merged member onward touches ascends, grown.covered]
    · exact (Finset.erase_subset _ _).trans grown.within
    · intro y outside notB
      have notX : y ≠ x := by
        rintro rfl
        rcases Finset.mem_insert.mp (grown.within member) with same | inside
        · exact notB same
        · exact outside inside
      simpa [merged, notX] using grown.frame y outside notB
    · exact Finset.mem_erase.mpr ⟨notNext.symm, grown.rooted.1⟩
    · simpa [merged, notX.symm] using grown.rooted.2
    · obtain ⟨c, inside, large⟩ := grown.large
      by_cases here : c = x ∨ c = heap.next x
      · refine ⟨x, Finset.mem_erase.mpr ⟨ascends, member⟩, ?_⟩
        simp only [merged, Function.update_self]
        rcases here with rfl | rfl <;> omega
      · obtain ⟨notC, notNextC⟩ := not_or.mp here
        exact ⟨c, Finset.mem_erase.mpr ⟨notNextC, inside⟩, by simpa [merged, notC] using large⟩
    · exact grown.bigblocks
    · exact grown.pages
  · rw [KmallocProofs.joined, if_neg touches]
    exact ⟨chunks, { grown with listed := grown.listed.settle member touches }, fun c inside _ => inside, rfl⟩

theorem linked_grown {arena : Nat} (listed : Listed heap chunks ∅) (inList : arena ∈ chunks)
    (clear : b + slobUnit * heap.units b ≠ arena ∧ arena + slobUnit * heap.units arena ≠ b) (fresh : b ∉ chunks)
    (positive : 0 < heap.units b) (outside : Outside heap chunks b) (member : cur ∈ chunks)
    (place : Between heap.next cur b) :
    ∃ chunks', Grown heap chunks b arena (linkBefore (linkBehind heap b cur) b cur) chunks' ∅ ∧ cur ∈ chunks' := by
  have notCur : cur ≠ b := fun same => fresh (same ▸ member)
  have onward := listed.ring.closed cur member
  have notNext : heap.next cur ≠ b := fun same => fresh (same ▸ onward)
  have notArena : b ≠ arena := fun same => fresh (same ▸ inList)
  have alone : heap.next cur = cur → cur = arena := by
    intro single
    have around := listed.ring.step cur member arena inList
    omega
  rw [link_eq notCur notNext fun touches single => clear.1 (touches.trans (single.trans (alone single)))]
  have start : Grown heap chunks b arena (inserted heap b cur) (insert b chunks) {b, heap.next cur} :=
    ⟨listed.inserted fresh positive outside member place, total_inserted fresh, covered_inserted, subset_rfl,
      fun _ _ _ => rfl, ⟨Finset.mem_insert_of_mem inList, rfl⟩, ⟨b, Finset.mem_insert_self _ _, le_rfl⟩, rfl, rfl⟩
  have nextB : (inserted heap b cur).next b = heap.next cur := by simp [inserted, notCur.symm]
  obtain ⟨between, first, kept, -⟩ := start.joined (Finset.mem_insert_self b chunks) fun touches =>
    ⟨notArena, fun same => clear.1 (touches.trans same)⟩
  have curIn : cur ∈ between := by
    by_cases single : heap.next cur = cur
    · rw [alone single]
      exact first.rooted.1
    · exact kept cur (Finset.mem_insert_of_mem member) fun same => single (same.trans nextB).symm
  have nextCur : (joined (inserted heap b cur) b).next cur = b := by
    unfold joined
    split_ifs <;> simp [merged, inserted, notCur]
  have units : cur + slobUnit * (joined (inserted heap b cur) b).units cur = b →
      cur ≠ arena := by
    rintro touches rfl
    rw [first.rooted.2] at touches
    exact clear.2 touches
  obtain ⟨chunks', last, keptLast, -⟩ := first.joined curIn fun touches => by
    rw [nextCur] at touches ⊢
    exact ⟨units touches, notArena⟩
  have noSeam : (({b, heap.next cur} : Finset Nat).erase ((inserted heap b cur).next b)).erase
      ((joined (inserted heap b cur) b).next cur) = ∅ := by
    rw [nextB, nextCur]
    ext x
    simp
    tauto
  rw [noSeam] at last
  exact ⟨chunks', last, keptLast cur curIn (by rw [nextCur]; exact notCur)⟩

theorem fitsBehind_iff {next : Nat → Nat} : fitsBehind next b cur = true ↔ Between next cur b := by
  simp [fitsBehind, Between]

theorem findPlace_reaches {next : Nat → Nat} (k : Nat) {turns : Nat} (enough : k < turns)
    (closed : ∀ x ∈ chunks, next x ∈ chunks) (member : cur ∈ chunks) (place : Between next (next^[k] cur) b) :
    ∃ found ∈ chunks, findPlace next b turns cur = .ok found ∧ Between next found b := by
  induction k generalizing cur turns with
  | zero =>
    obtain ⟨turns, rfl⟩ : ∃ more, turns = more + 1 := ⟨turns - 1, by omega⟩
    have here : Between next cur b := place
    exact ⟨cur, member, by rw [findPlace, if_pos (fitsBehind_iff.mpr here)], here⟩
  | succ k ih =>
    obtain ⟨turns, rfl⟩ : ∃ more, turns = more + 1 := ⟨turns - 1, by omega⟩
    by_cases here : Between next cur b
    · exact ⟨cur, member, by rw [findPlace, if_pos (fitsBehind_iff.mpr here)], here⟩
    · rw [findPlace, if_neg (mt fitsBehind_iff.mp here)]
      exact ih (by omega) (closed cur member) place

/-- The search for the reinsertion point ends within one round. -/
theorem findPlace_returns (ring : SortedRing heap.next chunks) (member : cur ∈ chunks) (fresh : b ∉ chunks)
    {turns : Nat} (enough : chunks.card ≤ turns) :
    ∃ found ∈ chunks, findPlace heap.next b turns cur = .ok found ∧ Between heap.next found b := by
  obtain ⟨place, inside, between⟩ := ring.exists_between ⟨cur, member⟩ fresh
  obtain ⟨k, less, reached⟩ := ring.reaches member inside
  exact findPlace_reaches k (by omega) ring.closed member (reached.symm ▸ between)

/-- The pieces share no byte. -/
def Apart (p q : Extent) : Prop := p.stop ≤ q.start ∨ q.stop ≤ p.start

instance : Std.Symm Apart := ⟨fun _ _ => Or.symm⟩

/-- The free chunks and the pieces that are taken share no byte and make up the arena and
the pages of the heap, all of which lie above the arena. -/
structure Owns (arena : Nat) (heap : Heap π) (chunks : Finset Nat) (pieces : List Extent) (pages : List Nat) :
    Prop where
  listed : Listed heap chunks ∅
  start : heap.slobfree ∈ chunks
  rooted : arena ∈ chunks ∧ heap.units arena = 1
  positive : ∀ p ∈ pieces, 0 < p.size
  apart : pieces.Pairwise Apart
  taken : ∀ p ∈ pieces, ∀ i, p.Has i → ¬Covered heap chunks i
  inside : ∀ i, Covered heap chunks i ∨ (∃ p ∈ pieces, p.Has i) →
    (arena ≤ i ∧ i < arena + slobUnit) ∨ ∃ page ∈ pages, page ≤ i ∧ i < page + pageSize
  above : ∀ page ∈ pages, arena + slobUnit < page
  sum : slobUnit * total heap chunks + (pieces.map Extent.size).sum = slobUnit + pageSize * pages.length

/-- The block at `b` as a piece. -/
def pieceAt (heap : Heap π) (b : Nat) : Extent := ⟨b, slobUnit * heap.units b⟩

theorem pieceAt_has {i : Nat} : (pieceAt heap b).Has i ↔ b ≤ i ∧ i < b + slobUnit * heap.units b := Iff.rfl

/-- Every byte of a piece lies in a page. -/
theorem Owns.high {arena : Nat} {pieces : List Extent} {pages : List Nat} {p : Extent} {i : Nat}
    (owns : Owns arena heap chunks pieces pages) (member : p ∈ pieces) (has : p.Has i) :
    (∃ page ∈ pages, page ≤ i ∧ i < page + pageSize) ∧ arena + slobUnit < i := by
  rcases owns.inside i (Or.inr ⟨p, member, has⟩) with ⟨low, high⟩ | ⟨page, inPages, low, high⟩
  · refine absurd ⟨arena, owns.rooted.1, low, ?_⟩ (owns.taken p member i has)
    rw [owns.rooted.2]
    omega
  · have above := owns.above page inPages
    exact ⟨⟨page, inPages, low, high⟩, by omega⟩

/-- The heap when `slob_free` has written the size. -/
def readied (heap : Heap π) (b size : Nat) : Heap π :=
  if size ≠ 0 then { heap with units := Function.update heap.units b (slobUnits size) } else heap

theorem slobFree_eq (turns : Nat) (heap : Heap π) (b size : Nat) :
    slobFree turns heap b size = if b = 0 then .ok heap else
      findPlace (readied heap b size).next b turns (readied heap b size).slobfree >>= fun cur =>
        .ok { linkBefore (linkBehind (readied heap b size) b cur) b cur with slobfree := cur } := rfl

/-- `slob_free` returns, and has made a piece free. -/
theorem slobFree_returns {arena size turns : Nat} {pieces : List Extent} {pages : List Nat}
    (owns : Owns arena (readied heap b size) chunks (pieceAt (readied heap b size) b :: pieces) pages)
    (enough : chunks.card ≤ turns) :
    ∃ after chunks', slobFree turns heap b size = .ok after ∧ Owns arena after chunks' pieces pages ∧
      (∀ p ∈ pieces, after.units p.start = (readied heap b size).units p.start) ∧
      (∃ c ∈ chunks', (readied heap b size).units b ≤ after.units c) ∧ chunks'.card ≤ chunks.card + 1 ∧
      after.bigblocks = heap.bigblocks ∧ after.pages = heap.pages := by
  have sameBigs : (readied heap b size).bigblocks = heap.bigblocks := by unfold readied; split_ifs <;> rfl
  have samePages : (readied heap b size).pages = heap.pages := by unfold readied; split_ifs <;> rfl
  rw [slobFree_eq, ← sameBigs, ← samePages]
  generalize readied heap b size = ready at *
  have first : pieceAt ready b ∈ pieceAt ready b :: pieces := List.mem_cons_self
  have positive : 0 < ready.units b := by
    have size := owns.positive _ first
    simp only [pieceAt] at size
    exact Nat.pos_of_mul_pos_left size
  have unit : 0 < slobUnit := by decide
  have bytes : 0 < slobUnit * ready.units b := Nat.mul_pos unit positive
  have atStart := owns.high first (pieceAt_has.mpr ⟨le_rfl, by omega⟩)
  have atEnd := owns.high first (i := b + slobUnit * ready.units b - 1) (pieceAt_has.mpr ⟨by omega, by omega⟩)
  have fresh : b ∉ chunks := fun inList => owns.taken _ first b (pieceAt_has.mpr ⟨le_rfl, by omega⟩)
    ⟨b, inList, le_rfl, by omega⟩
  have outside : Outside ready chunks b := by
    intro c inList
    have own := owns.listed.positive c inList
    have ownBytes : 0 < slobUnit * ready.units c := Nat.mul_pos unit own
    by_contra overlap
    have low := owns.taken _ first (max b c) (pieceAt_has.mpr ⟨by omega, by omega⟩)
    exact low ⟨c, inList, by omega, by omega⟩
  have clear : b + slobUnit * ready.units b ≠ arena ∧ arena + slobUnit * ready.units arena ≠ b := by
    rw [owns.rooted.2]
    omega
  obtain ⟨cur, member, found, place⟩ := findPlace_returns owns.listed.ring owns.start fresh enough
  obtain ⟨chunks', grown, curIn⟩ := linked_grown owns.listed owns.rooted.1 clear fresh positive outside member place
  rw [if_neg (by omega), found]
  have headApart : ∀ p ∈ pieces, Apart (pieceAt ready b) p := (List.pairwise_cons.mp owns.apart).1
  refine ⟨_, chunks', rfl, ⟨⟨grown.listed.ring, grown.listed.positive, grown.listed.apart⟩, curIn,
    ⟨grown.rooted.1, grown.rooted.2.trans owns.rooted.2⟩, fun p inPieces => owns.positive p (List.mem_cons_of_mem _ inPieces),
    (List.pairwise_cons.mp owns.apart).2, ?_, ?_, owns.above, ?_⟩, ?_, grown.large, ?_, grown.bigblocks, grown.pages⟩
  · intro p inPieces i has covered
    rcases (grown.covered i).mp covered with own | old
    · have far := headApart p inPieces
      unfold Apart pieceAt Extents.Extent.stop at far
      unfold Extents.Extent.Has Extents.Extent.stop at has
      dsimp only at far
      omega
    · exact owns.taken p (List.mem_cons_of_mem _ inPieces) i has old
  · rintro i (covered | ⟨p, inPieces, has⟩)
    · rcases (grown.covered i).mp covered with own | old
      · exact owns.inside i (Or.inr ⟨_, first, own⟩)
      · exact owns.inside i (Or.inl old)
    · exact owns.inside i (Or.inr ⟨p, List.mem_cons_of_mem _ inPieces, has⟩)
  · have sum := owns.sum
    have grownTotal : total { linkBefore (linkBehind ready b cur) b cur with slobfree := cur } chunks' =
        total ready chunks + ready.units b := grown.total
    rw [grownTotal, Nat.mul_add]
    simp only [List.map_cons, List.sum_cons, pieceAt] at sum
    omega
  · intro p inPieces
    have notB : p.start ≠ b := by
      have far := headApart p inPieces
      have size := owns.positive p (List.mem_cons_of_mem _ inPieces)
      unfold Apart pieceAt Extents.Extent.stop at far
      dsimp only at far
      omega
    refine grown.frame p.start (fun inList => ?_) notB
    have size := owns.positive p (List.mem_cons_of_mem _ inPieces)
    have own := owns.listed.positive _ inList
    have ownBytes : 0 < slobUnit * ready.units p.start := Nat.mul_pos unit own
    exact owns.taken p (List.mem_cons_of_mem _ inPieces) p.start ⟨le_rfl, by unfold Extents.Extent.stop; omega⟩
      ⟨p.start, inList, le_rfl, by omega⟩
  · exact (Finset.card_le_card grown.within).trans (Finset.card_insert_le _ _)

/-! ## `slob_alloc` -/

/-- What is left of the chunks when `units` are cut from the front of the one at `cur`. -/
def cut (heap : Heap π) (chunks : Finset Nat) (units cur : Nat) : Finset Nat :=
  if heap.units cur = units then chunks.erase cur else (insert (cur + slobUnit * units) chunks).erase cur

theorem take_units_cur (heap : Heap π) (units prev cur : Nat) : (take heap units prev cur).units cur = units := by
  unfold take
  split_ifs with exact
  · exact exact
  · simp

theorem take_units_rest {units : Nat} (more : heap.units cur ≠ units) (some' : 0 < units) :
    (take heap units prev cur).units (cur + slobUnit * units) = heap.units cur - units := by
  have bytes : 0 < slobUnit * units := Nat.mul_pos (by decide) some'
  have notCur : cur + slobUnit * units ≠ cur := by omega
  rw [take, if_neg more]
  dsimp only
  rw [Function.update_of_ne notCur, Function.update_self]

theorem take_units_other {units c : Nat} (notCur : c ≠ cur) (notRest : c ≠ cur + slobUnit * units) :
    (take heap units prev cur).units c = heap.units c := by
  unfold take
  split_ifs
  · rfl
  · simp [notCur, notRest]

section
variable {units : Nat} (listed : Listed heap chunks ∅) (member : cur ∈ chunks) (roomy : units ≤ heap.units cur)
  (some' : 0 < units)
include listed member roomy some'

theorem rest_fresh (more : heap.units cur ≠ units) : cur + slobUnit * units ∉ chunks := by
  intro inside
  have less : slobUnit * units < slobUnit * heap.units cur :=
    Nat.mul_lt_mul_of_pos_left (by omega) (by decide)
  have bytes : 0 < slobUnit * units := Nat.mul_pos (by decide) some'
  have apart := listed.apart cur member _ inside (by omega)
  omega

theorem take_ring (before : prev ∈ chunks) (linked : heap.next prev = cur) (other : prev ≠ cur) :
    SortedRing (take heap units prev cur).next (cut heap chunks units cur) := by
  unfold take cut
  by_cases exact : heap.units cur = units
  · rw [if_pos exact, if_pos exact]
    exact listed.ring.erase before linked other
  · have fresh := rest_fresh listed member roomy some' exact
    have less : slobUnit * units < slobUnit * heap.units cur :=
      Nat.mul_lt_mul_of_pos_left (by omega) (by decide)
    have bytes : 0 < slobUnit * units := Nat.mul_pos (by decide) some'
    have place : Between heap.next cur (cur + slobUnit * units) := by
      have apart := listed.apart cur member _ (listed.ring.closed cur member)
      unfold Between
      omega
    have notRest : prev ≠ cur + slobUnit * units := fun same => fresh (same ▸ before)
    have ring := (listed.ring.insert fresh member place).erase
      (Finset.mem_insert_of_mem before : prev ∈ _) (by simp [other, notRest, linked]) other
    rw [if_neg exact, if_neg exact]
    refine ring.congr fun x inside => ?_
    have notX := Finset.ne_of_mem_erase inside
    grind [Function.update_apply]

theorem take_listed (before : prev ∈ chunks) (linked : heap.next prev = cur) (other : prev ≠ cur) :
    Listed (take heap units prev cur) (cut heap chunks units cur) ∅ := by
  have ring := take_ring listed member roomy some' before linked other
  unfold cut at ring ⊢
  by_cases exact : heap.units cur = units
  · rw [if_pos exact] at ring ⊢
    have same : (take heap units prev cur).units = heap.units := by rw [take, if_pos exact]
    refine ⟨ring, fun c inside => ?_, fun c inside d also => ?_⟩
    · rw [same]
      exact listed.positive c (Finset.mem_of_mem_erase inside)
    · rw [same]
      exact listed.apart c (Finset.mem_of_mem_erase inside) d (Finset.mem_of_mem_erase also)
  · rw [if_neg exact] at ring ⊢
    have fresh := rest_fresh listed member roomy some' exact
    have less : slobUnit * units < slobUnit * heap.units cur :=
      Nat.mul_lt_mul_of_pos_left (by omega) (by decide)
    have bytes : 0 < slobUnit * units := Nat.mul_pos (by decide) some'
    have left : slobUnit * (heap.units cur - units) = slobUnit * heap.units cur - slobUnit * units := Nat.mul_sub ..
    refine ⟨ring, fun c inside => ?_, fun c inside d also below => ?_⟩
    · obtain ⟨notC, inC⟩ := Finset.mem_erase.mp inside
      rcases Finset.mem_insert.mp inC with rfl | old
      · rw [take_units_rest exact some']
        omega
      · rw [take_units_other notC fun same => fresh (same ▸ old)]
        exact listed.positive c old
    · obtain ⟨notC, inC⟩ := Finset.mem_erase.mp inside
      obtain ⟨notD, inD⟩ := Finset.mem_erase.mp also
      have fromCur : ∀ e ∈ chunks, cur < e → cur + slobUnit * heap.units cur < e := by
        intro e inE above
        have apart := listed.apart cur member e inE above
        have strict := apart.2 (Finset.notMem_empty _)
        omega
      have toCur : ∀ e ∈ chunks, e < cur → e + slobUnit * heap.units e < cur := by
        intro e inE above
        have apart := listed.apart e inE cur member above
        have strict := apart.2 (Finset.notMem_empty _)
        omega
      rcases Finset.mem_insert.mp inC with rfl | oldC <;> rcases Finset.mem_insert.mp inD with rfl | oldD
      · exact absurd below (lt_irrefl _)
      · rw [take_units_rest exact some']
        have far := fromCur d oldD (by omega)
        omega
      · rw [take_units_other notC below.ne]
        rcases lt_or_gt_of_ne notC with low | high
        · have far := toCur c oldC low
          omega
        · have far := fromCur c oldC high
          omega
      · rw [take_units_other notC fun same => fresh (same ▸ oldC)]
        exact listed.apart c oldC d oldD below

theorem take_total : total (take heap units prev cur) (cut heap chunks units cur) + units = total heap chunks := by
  unfold cut
  by_cases exact : heap.units cur = units
  · have same : (take heap units prev cur).units = heap.units := by rw [take, if_pos exact]
    rw [if_pos exact, total, total, same, ← Finset.add_sum_erase _ _ member, exact]
    exact Nat.add_comm ..
  · have fresh := rest_fresh listed member roomy some' exact
    have bytes : 0 < slobUnit * units := Nat.mul_pos (by decide) some'
    have notCur : cur + slobUnit * units ≠ cur := by omega
    have others : ∑ c ∈ chunks.erase cur, (take heap units prev cur).units c = ∑ c ∈ chunks.erase cur, heap.units c := by
      refine Finset.sum_congr rfl fun c inside => take_units_other (Finset.ne_of_mem_erase inside) ?_
      rintro rfl
      exact fresh (Finset.mem_of_mem_erase inside)
    rw [if_neg exact, Finset.erase_insert_of_ne notCur, total, total,
      Finset.sum_insert fun inside => fresh (Finset.mem_of_mem_erase inside), ← Finset.add_sum_erase _ heap.units member,
      take_units_rest exact some', others]
    omega

theorem take_covered (i : Nat) : Covered (take heap units prev cur) (cut heap chunks units cur) i ↔
    Covered heap chunks i ∧ ¬(cur ≤ i ∧ i < cur + slobUnit * units) := by
  have less : slobUnit * units ≤ slobUnit * heap.units cur := Nat.mul_le_mul_left _ roomy
  have left : slobUnit * (heap.units cur - units) = slobUnit * heap.units cur - slobUnit * units := Nat.mul_sub ..
  have far : ∀ c ∈ chunks, c ≠ cur → c ≤ i → i < c + slobUnit * heap.units c →
      ¬(cur ≤ i ∧ i < cur + slobUnit * heap.units cur) := by
    intro c inside notC low high
    rcases lt_or_gt_of_ne notC with below | above
    · have apart := listed.apart c inside cur member below
      omega
    · have apart := listed.apart cur member c inside above
      omega
  constructor
  · rintro ⟨c, inside, low, high⟩
    unfold cut at inside
    split_ifs at inside with exact
    · obtain ⟨notC, old⟩ := Finset.mem_erase.mp inside
      rw [show (take heap units prev cur).units = heap.units by rw [take, if_pos exact]] at high
      have apart := far c old notC low high
      exact ⟨⟨c, old, low, high⟩, by omega⟩
    · obtain ⟨notC, inC⟩ := Finset.mem_erase.mp inside
      rcases Finset.mem_insert.mp inC with rfl | old
      · rw [take_units_rest exact some'] at high
        exact ⟨⟨cur, member, by omega, by omega⟩, by omega⟩
      · have fresh := rest_fresh listed member roomy some' exact
        rw [take_units_other notC fun same => fresh (same ▸ old)] at high
        have apart := far c old notC low high
        exact ⟨⟨c, old, low, high⟩, by omega⟩
  · rintro ⟨⟨c, inside, low, high⟩, beyond⟩
    unfold cut
    split_ifs with exact
    · have notC : c ≠ cur := by
        rintro rfl
        rw [exact] at high
        exact beyond ⟨low, high⟩
      refine ⟨c, Finset.mem_erase.mpr ⟨notC, inside⟩, low, ?_⟩
      rwa [show (take heap units prev cur).units = heap.units by rw [take, if_pos exact]]
    · have fresh := rest_fresh listed member roomy some' exact
      have bytes : 0 < slobUnit * units := Nat.mul_pos (by decide) some'
      by_cases here : c = cur
      · subst here
        refine ⟨c + slobUnit * units, Finset.mem_erase.mpr ⟨by omega, Finset.mem_insert_self _ _⟩, by omega, ?_⟩
        rw [take_units_rest exact some']
        omega
      · refine ⟨c, Finset.mem_erase.mpr ⟨here, Finset.mem_insert_of_mem inside⟩, low, ?_⟩
        rwa [take_units_other here fun same => fresh (same ▸ inside)]

end

theorem take_slobfree (heap : Heap π) (units prev cur : Nat) : (take heap units prev cur).slobfree = prev := by
  unfold take
  split_ifs <;> rfl

theorem take_bigblocks (heap : Heap π) (units prev cur : Nat) :
    (take heap units prev cur).bigblocks = heap.bigblocks := by
  unfold take
  split_ifs <;> rfl

theorem take_pages (heap : Heap π) (units prev cur : Nat) : (take heap units prev cur).pages = heap.pages := by
  unfold take
  split_ifs <;> rfl

theorem apart_of_disjoint {p q : Extent} (one : 0 < p.size) (other : 0 < q.size)
    (disjoint : ∀ i, p.Has i → ¬q.Has i) : Apart p q := by
  unfold Extent.Has at disjoint
  unfold Apart Extent.stop at *
  by_contra overlap
  exact disjoint (max p.start q.start) (by omega) (by omega)

/-- What is cut from a chunk is one more piece. -/
theorem take_owns {arena units : Nat} {pieces : List Extent} {pages : List Nat}
    (owns : Owns arena heap chunks pieces pages) (before : prev ∈ chunks) (linked : heap.next prev = cur)
    (roomy : units ≤ heap.units cur) (several : 1 < units) :
    ∃ chunks', Owns arena (take heap units prev cur) chunks' (⟨cur, slobUnit * units⟩ :: pieces) pages ∧
      (∀ p ∈ pieces, (take heap units prev cur).units p.start = heap.units p.start) ∧
      chunks'.card ≤ chunks.card := by
  have some' : 0 < units := by omega
  have member : cur ∈ chunks := linked ▸ owns.listed.ring.closed prev before
  have notArena : arena ≠ cur := by
    rintro rfl
    rw [owns.rooted.2] at roomy
    omega
  have other : prev ≠ cur := by
    rintro rfl
    have around := owns.listed.ring.step prev member arena owns.rooted.1
    omega
  have bytes : 0 < slobUnit * units := Nat.mul_pos (by decide) some'
  have less : slobUnit * units ≤ slobUnit * heap.units cur := Nat.mul_le_mul_left _ roomy
  have covers := @take_covered _ _ _ _ prev units owns.listed member roomy some'
  have apartCur : ∀ p ∈ pieces, Apart ⟨cur, slobUnit * units⟩ p := by
    intro p inside
    refine apart_of_disjoint bytes (owns.positive p inside) fun i own has => owns.taken p inside i has ?_
    simp only [Extent.Has, Extent.stop] at own
    exact ⟨cur, member, own.1, by omega⟩
  have frame : ∀ p ∈ pieces, (take heap units prev cur).units p.start = heap.units p.start := by
    intro p inside
    have size := owns.positive p inside
    have notCovered := owns.taken p inside p.start ⟨le_rfl, by unfold Extent.stop; omega⟩
    by_cases exact : heap.units cur = units
    · rw [take, if_pos exact]
    · have more : slobUnit * units < slobUnit * heap.units cur :=
        Nat.mul_lt_mul_of_pos_left (by omega) (by decide)
      refine take_units_other (fun same => notCovered ⟨cur, member, by omega, by omega⟩) fun same =>
        notCovered ⟨cur, member, by omega, by omega⟩
  refine ⟨cut heap chunks units cur, ⟨take_listed owns.listed member roomy some' before linked other, ?_, ⟨?_, ?_⟩, ?_,
    List.pairwise_cons.mpr ⟨apartCur, owns.apart⟩, ?_, ?_, owns.above, ?_⟩, frame, ?_⟩
  · rw [take_slobfree]
    unfold cut
    split_ifs
    · exact Finset.mem_erase.mpr ⟨other, before⟩
    · exact Finset.mem_erase.mpr ⟨other, Finset.mem_insert_of_mem before⟩
  · unfold cut
    split_ifs
    · exact Finset.mem_erase.mpr ⟨notArena, owns.rooted.1⟩
    · exact Finset.mem_erase.mpr ⟨notArena, Finset.mem_insert_of_mem owns.rooted.1⟩
  · rw [← owns.rooted.2]
    by_cases exact : heap.units cur = units
    · rw [take, if_pos exact]
    · exact take_units_other notArena fun same =>
        rest_fresh owns.listed member roomy some' exact (same ▸ owns.rooted.1)
  · intro p inside
    rcases List.mem_cons.mp inside with rfl | old
    · exact bytes
    · exact owns.positive p old
  · intro p inside i has covered
    have old := (covers i).mp covered
    rcases List.mem_cons.mp inside with rfl | inPieces
    · exact old.2 has
    · exact owns.taken p inPieces i has old.1
  · rintro i (covered | ⟨p, inside, has⟩)
    · exact owns.inside i (Or.inl ((covers i).mp covered).1)
    · rcases List.mem_cons.mp inside with rfl | inPieces
      · simp only [Extent.Has, Extent.stop] at has
        exact owns.inside i (Or.inl ⟨cur, member, has.1, by omega⟩)
      · exact owns.inside i (Or.inr ⟨p, inPieces, has⟩)
  · have sum := owns.sum
    have count := @take_total _ _ _ _ prev units owns.listed member roomy some'
    rw [← count, Nat.mul_add] at sum
    simp only [List.map_cons, List.sum_cons]
    omega
  · unfold cut
    split_ifs with exact
    · exact Finset.card_erase_le
    · have one := Finset.card_insert_le (cur + slobUnit * units) chunks
      rw [Finset.card_erase_of_mem (Finset.mem_insert_of_mem member)]
      omega

section
variable {allocator : PageAllocator π} {arena units : Nat} {pieces : List Extent} {pages : List Nat}

/-- Some chunk that the search comes to has so many units. -/
def Roomy (heap : Heap π) (units : Nat) : Prop := ∃ k, units ≤ heap.units (heap.next^[k] heap.slobfree)

theorem iterate_mem (ring : SortedRing heap.next chunks) (member : cur ∈ chunks) (k : Nat) :
    heap.next^[k] cur ∈ chunks := by
  induction k with
  | zero => exact member
  | succ k ih =>
    rw [Function.iterate_succ_apply']
    exact ring.closed _ ih

theorem roomy_iff (owns : Owns arena heap chunks pieces pages) :
    Roomy heap units ↔ ∃ c ∈ chunks, units ≤ heap.units c := by
  constructor
  · rintro ⟨k, room⟩
    exact ⟨_, iterate_mem owns.listed.ring owns.start k, room⟩
  · rintro ⟨c, inside, room⟩
    obtain ⟨k, -, reached⟩ := owns.listed.ring.reaches owns.start inside
    exact ⟨k, reached.symm ▸ room⟩

/-- Back at `slobfree` the search asks for a page. -/
def refill (allocator : PageAllocator π) (units turns : Nat) (heap : Heap π) :
    Except Stopped (Option Nat × Heap π) :=
  match allocator.alloc heap.pages 1 with
  | (none, pages) => .ok (none, { heap with pages })
  | (some page, pages) => do
    let heap ← slobFree turns { heap with pages } page pageSize
    slobSearch allocator units turns heap heap.slobfree (heap.next heap.slobfree)

/-- From `cur` the search comes to a chunk with room, or has seen none up to `slobfree`. -/
theorem slobSearch_walks (allocator : PageAllocator π) (units : Nat) (ring : SortedRing heap.next chunks) (before : prev ∈ chunks) (linked : heap.next prev = cur)
    (k : Nat) {turns : Nat} (returns : heap.next^[k] cur = heap.slobfree) (enough : k < turns) :
    (∃ last ∈ chunks, ∃ found, heap.next last = found ∧ units ≤ heap.units found ∧
      slobSearch allocator units turns heap prev cur = .ok (some found, take heap units last found)) ∨
    ∃ j ≤ k, heap.next^[j] cur = heap.slobfree ∧ (∀ i ≤ j, ¬units ≤ heap.units (heap.next^[i] cur)) ∧
      slobSearch allocator units turns heap prev cur = refill allocator units (turns - 1 - j) heap := by
  induction k generalizing prev cur turns with
  | zero =>
    obtain ⟨turns, rfl⟩ : ∃ more, turns = more + 1 := ⟨turns - 1, by omega⟩
    have here : cur = heap.slobfree := returns
    by_cases room : units ≤ heap.units cur
    · exact Or.inl ⟨prev, before, cur, linked, room, by rw [slobSearch, if_pos room]⟩
    · refine Or.inr ⟨0, le_rfl, here, fun i first => ?_, by rw [slobSearch, if_neg room, if_pos here]; rfl⟩
      obtain rfl : i = 0 := by omega
      exact room
  | succ k ih =>
    obtain ⟨turns, rfl⟩ : ∃ more, turns = more + 1 := ⟨turns - 1, by omega⟩
    by_cases room : units ≤ heap.units cur
    · exact Or.inl ⟨prev, before, cur, linked, room, by rw [slobSearch, if_pos room]⟩
    · by_cases here : cur = heap.slobfree
      · refine Or.inr ⟨0, Nat.zero_le _, here, fun i first => ?_, by rw [slobSearch, if_neg room, if_pos here]; rfl⟩
        obtain rfl : i = 0 := by omega
        exact room
      · rw [slobSearch, if_neg room, if_neg here]
        have member : cur ∈ chunks := linked ▸ ring.closed prev before
        rcases ih member rfl returns (by omega : k < turns) with found | ⟨j, less, back, small, asks⟩
        · exact Or.inl found
        · refine Or.inr ⟨j + 1, by omega, back, fun i within => ?_, ?_⟩
          · cases i with
            | zero => exact room
            | succ i => exact small i (by omega)
          · rw [asks]
            congr 1
            omega

/-- The nodes up to the return to `slobfree` are all that the list has. -/
theorem iterate_within {next : Nat → Nat} {start j : Nat} (returns : next^[j] (next start) = start) (m : Nat) :
    ∃ i ≤ j, next^[m] (next start) = next^[i] (next start) := by
  induction m with
  | zero => exact ⟨0, Nat.zero_le _, rfl⟩
  | succ m ih =>
    obtain ⟨i, within, same⟩ := ih
    rw [Function.iterate_succ_apply', same]
    rcases eq_or_lt_of_le within with rfl | less
    · exact ⟨0, Nat.zero_le _, by rw [returns]; rfl⟩
    · exact ⟨i + 1, less, (Function.iterate_succ_apply' next i (next start)).symm⟩

/-- With room the search takes a chunk, without it asks for a page. -/
theorem slobSearch_cases (allocator : PageAllocator π) (units : Nat) (owns : Owns arena heap chunks pieces pages) {turns : Nat} (enough : chunks.card < turns) :
    (Roomy heap units ∧ ∃ last ∈ chunks, ∃ found, heap.next last = found ∧ units ≤ heap.units found ∧
      slobSearch allocator units turns heap heap.slobfree (heap.next heap.slobfree) =
        .ok (some found, take heap units last found)) ∨
    (¬Roomy heap units ∧ ∃ rest, turns - chunks.card ≤ rest ∧
      slobSearch allocator units turns heap heap.slobfree (heap.next heap.slobfree) =
        refill allocator units rest heap) := by
  have ring := owns.listed.ring
  have onward := ring.closed _ owns.start
  obtain ⟨k, less, returns⟩ := ring.reaches onward owns.start
  rcases slobSearch_walks allocator units ring owns.start rfl k returns (by omega : k < turns) with
    ⟨last, before, found, linked, room, ran⟩ | ⟨j, within, back, small, asks⟩
  · have member : found ∈ chunks := linked ▸ ring.closed last before
    exact Or.inl ⟨(roomy_iff owns).mpr ⟨found, member, room⟩, last, before, found, linked, room, ran⟩
  · refine Or.inr ⟨fun roomy => ?_, turns - 1 - j, by omega, asks⟩
    obtain ⟨c, inside, room⟩ := (roomy_iff owns).mp roomy
    obtain ⟨m, -, reached⟩ := ring.reaches onward inside
    obtain ⟨i, first, same⟩ := iterate_within back m
    exact small i first (by rw [← same, reached]; exact room)

/-- What a block of pages must keep away from. -/
def Clear (arena : Nat) (held : List Nat) (page : Nat) : Prop :=
  arena + slobUnit < page ∧ ∀ other ∈ held, other + pageSize ≤ page ∨ page + pageSize ≤ other

/-- Only the units of the chunks matter, and the links. -/
theorem Owns.of_units {other : Heap π} (owns : Owns arena heap chunks pieces pages)
    (units : ∀ c ∈ chunks, other.units c = heap.units c) (next : other.next = heap.next)
    (slobfree : other.slobfree = heap.slobfree) : Owns arena other chunks pieces pages := by
  have covered : ∀ i, Covered other chunks i ↔ Covered heap chunks i := by
    intro i
    constructor <;> rintro ⟨c, inside, low, high⟩
    · exact ⟨c, inside, low, by rwa [← units c inside]⟩
    · exact ⟨c, inside, low, by rwa [units c inside]⟩
  have count : total other chunks = total heap chunks := Finset.sum_congr rfl units
  refine ⟨⟨next ▸ owns.listed.ring, fun c inside => ?_, fun c inside d also => ?_⟩, slobfree ▸ owns.start,
    ⟨owns.rooted.1, (units arena owns.rooted.1).trans owns.rooted.2⟩, owns.positive, owns.apart, ?_, ?_, owns.above,
    by rw [count]; exact owns.sum⟩
  · rw [units c inside]
    exact owns.listed.positive c inside
  · rw [units c inside]
    exact owns.listed.apart c inside d also
  · intro p inside i has used
    exact owns.taken p inside i has ((covered i).mp used)
  · intro i used
    exact owns.inside i (used.imp_left (covered i).mp)

theorem Owns.perm {others : List Extent} (owns : Owns arena heap chunks pieces pages) (perm : pieces.Perm others) :
    Owns arena heap chunks others pages := by
  have same : ∀ p, p ∈ others ↔ p ∈ pieces := fun p => perm.mem_iff.symm
  refine ⟨owns.listed, owns.start, owns.rooted, ?_, ?_, ?_, ?_, owns.above, ?_⟩
  · exact fun p inside => owns.positive p ((same p).mp inside)
  · exact (perm.pairwise_iff fun apart => Or.symm apart).mp owns.apart
  · exact fun p inside => owns.taken p ((same p).mp inside)
  · intro i used
    exact owns.inside i (used.imp_right fun ⟨p, inside, has⟩ => ⟨p, (same p).mp inside, has⟩)
  · rw [← (perm.map Extent.size).sum_eq]
    exact owns.sum

/-- A piece is not a chunk. -/
theorem Owns.start_notMem {p : Extent} (owns : Owns arena heap chunks pieces pages) (member : p ∈ pieces) :
    p.start ∉ chunks := by
  intro inside
  have size := owns.positive p member
  have own := owns.listed.positive _ inside
  have bytes : 0 < slobUnit * heap.units p.start := Nat.mul_pos (by decide) own
  exact owns.taken p member p.start ⟨le_rfl, by unfold Extent.stop; omega⟩ ⟨p.start, inside, le_rfl, by omega⟩

theorem Owns.start_ne {p q : Extent} (owns : Owns arena heap chunks (p :: pieces) pages) (member : q ∈ pieces) :
    q.start ≠ p.start := by
  have far := (List.pairwise_cons.mp owns.apart).1 q member
  have one := owns.positive p List.mem_cons_self
  have other := owns.positive q (List.mem_cons_of_mem _ member)
  unfold Apart Extent.stop at far
  omega

/-- When its size is written a piece is as `slob_free` takes it. -/
theorem Owns.readied {other : Heap π} {size : Nat}
    (owns : Owns arena heap chunks (⟨b, slobUnit * slobUnits size⟩ :: pieces) pages) (some' : size ≠ 0)
    (units : other.units = heap.units) (next : other.next = heap.next) (slobfree : other.slobfree = heap.slobfree) :
    Owns arena (KmallocProofs.readied other b size) chunks
        (pieceAt (KmallocProofs.readied other b size) b :: pieces) pages ∧
      (∀ p ∈ pieces, (KmallocProofs.readied other b size).units p.start = heap.units p.start) ∧
      (KmallocProofs.readied other b size).units b = slobUnits size := by
  have notChunk : b ∉ chunks := owns.start_notMem List.mem_cons_self
  have ready : (KmallocProofs.readied other b size).units = Function.update heap.units b (slobUnits size) := by
    rw [KmallocProofs.readied, if_pos some', units]
  have piece : pieceAt (KmallocProofs.readied other b size) b = ⟨b, slobUnit * slobUnits size⟩ := by
    simp [pieceAt, ready]
  rw [piece]
  refine ⟨owns.of_units (fun c inside => ?_) ?_ ?_, fun p inside => ?_, by simp [ready]⟩
  · rw [ready, Function.update_of_ne fun (same : c = b) => notChunk (same ▸ inside)]
  · rw [KmallocProofs.readied, if_pos some', next]
  · rw [KmallocProofs.readied, if_pos some', slobfree]
  · rw [ready, Function.update_of_ne (owns.start_ne inside)]

/-- A new page of the heap is a piece. -/
theorem Owns.newPage {page : Nat} (owns : Owns arena heap chunks pieces pages) (clear : Clear arena pages page) :
    Owns arena heap chunks (⟨page, slobUnit * slobUnits pageSize⟩ :: pieces) (page :: pages) := by
  obtain ⟨above, away⟩ := clear
  rw [show slobUnit * slobUnits pageSize = pageSize from rfl]
  -- no byte of the page was in use
  have unused : ∀ i, page ≤ i → i < page + pageSize → ¬(Covered heap chunks i ∨ ∃ p ∈ pieces, p.Has i) := by
    intro i low high used
    rcases owns.inside i used with inArena | ⟨other, inPages, low', high'⟩
    · omega
    · have apart := away other inPages
      omega
  refine ⟨owns.listed, owns.start, owns.rooted, ?_, ?_, ?_, ?_, ?_, ?_⟩
  · intro p inside
    rcases List.mem_cons.mp inside with rfl | old
    · exact (by decide : 0 < pageSize)
    · exact owns.positive p old
  · refine List.pairwise_cons.mpr ⟨fun p inside => ?_, owns.apart⟩
    refine apart_of_disjoint (by decide : 0 < pageSize) (owns.positive p inside) fun i here has => ?_
    exact unused i here.1 here.2 (Or.inr ⟨p, inside, has⟩)
  · intro p inside i has used
    rcases List.mem_cons.mp inside with rfl | old
    · exact unused i has.1 has.2 (Or.inl used)
    · exact owns.taken p old i has used
  · intro i used
    have older : Covered heap chunks i ∨ (∃ p ∈ pieces, p.Has i) → (arena ≤ i ∧ i < arena + slobUnit) ∨
        ∃ other ∈ page :: pages, other ≤ i ∧ i < other + pageSize := fun old =>
      (owns.inside i old).imp_right fun ⟨other, inPages, bounds⟩ => ⟨other, List.mem_cons_of_mem _ inPages, bounds⟩
    rcases used with used | ⟨p, inside, has⟩
    · exact older (Or.inl used)
    · rcases List.mem_cons.mp inside with rfl | old
      · exact Or.inr ⟨page, List.mem_cons_self, has⟩
      · exact older (Or.inr ⟨p, old, has⟩)
  · intro other inside
    rcases List.mem_cons.mp inside with rfl | old
    · exact above
    · exact owns.above other old
  · have sum := owns.sum
    simp only [List.map_cons, List.sum_cons, List.length_cons, Nat.mul_succ]
    omega

/-- A piece of `units` at `m` has been taken from the heap. -/
structure Taken (arena : Nat) (heap after : Heap π) (units : Nat) (pieces : List Extent) (pages : List Nat) (m : Nat) :
    Prop where
  owns : ∃ chunks, Owns arena after chunks (⟨m, slobUnit * units⟩ :: pieces) pages
  own : after.units m = units
  frame : ∀ p ∈ pieces, after.units p.start = heap.units p.start
  bigblocks : after.bigblocks = heap.bigblocks

/-- `slob_alloc` returns. With room it takes a piece of what there is; without it asks for
one page, and takes a piece of that, or returns nothing where there is none. -/
theorem slobAlloc_returns (allocator : PageAllocator π) {size turns : Nat} (owns : Owns arena heap chunks pieces pages)
    (fits : size + slobUnit < pageSize) (several : 1 < slobUnits size) (enough : 2 * chunks.card + 2 < turns)
    (clear : ∀ page rest, allocator.alloc heap.pages 1 = (some page, rest) → Clear arena pages page) :
    ∃ result after, slobAlloc allocator turns heap size = .ok (result, after) ∧
      ((Roomy heap (slobUnits size) ∧ ∃ m, result = some m ∧ Taken arena heap after (slobUnits size) pieces pages m ∧
          after.pages = heap.pages) ∨
        (¬Roomy heap (slobUnits size) ∧ ∃ rest, allocator.alloc heap.pages 1 = (none, rest) ∧ result = none ∧
          after = { heap with pages := rest }) ∨
        (¬Roomy heap (slobUnits size) ∧ ∃ page rest m, allocator.alloc heap.pages 1 = (some page, rest) ∧
          result = some m ∧ Taken arena heap after (slobUnits size) pieces (page :: pages) m ∧ after.pages = rest)) := by
  rw [slobAlloc, if_pos fits]
  rcases slobSearch_cases allocator (slobUnits size) owns (by omega : chunks.card < turns) with
    ⟨roomy, last, before, found, linked, room, ran⟩ | ⟨full, more, left, ran⟩
  · obtain ⟨chunks', owns', frame, -⟩ := take_owns owns before linked room several
    exact ⟨some found, _, ran, Or.inl ⟨roomy, found, rfl,
      ⟨⟨chunks', owns'⟩, take_units_cur .., frame, take_bigblocks ..⟩, take_pages ..⟩⟩
  · rw [ran, refill]
    rcases answer : allocator.alloc heap.pages 1 with ⟨given, rest⟩
    cases given with
    | none => exact ⟨none, _, rfl, Or.inr (Or.inl ⟨full, rest, rfl, rfl, rfl⟩)⟩
    | some page =>
      obtain ⟨grown, sameUnits, large⟩ := (owns.newPage (clear page rest answer)).readied
        (by decide : pageSize ≠ 0) (rfl : ({ heap with pages := rest } : Heap π).units = _) rfl rfl
      obtain ⟨between, chunks', freed, owns', frame, room, count, bigs, kept⟩ :=
        slobFree_returns grown (by omega : chunks.card ≤ more)
      have roomy : Roomy between (slobUnits size) := by
        obtain ⟨c, inside, wide⟩ := room
        refine (roomy_iff owns').mpr ⟨c, inside, le_trans ?_ wide⟩
        rw [large]
        unfold slobUnits slobUnit pageSize at *
        omega
      rcases slobSearch_cases allocator (slobUnits size) owns' (by omega : chunks'.card < more) with ⟨-, last, before, found, linked, room, ran⟩ | ⟨full, -⟩
      · obtain ⟨chunks'', owns'', frame', -⟩ := take_owns owns' before linked room several
        refine ⟨some found, take between (slobUnits size) last found, ?_, Or.inr (Or.inr ⟨full, page, rest, found, rfl, rfl,
          ⟨⟨chunks'', owns''⟩, take_units_cur .., fun p inside => ?_, ?_⟩, ?_⟩)⟩
        · simp only [freed]
          exact ran
        · rw [frame' p inside, frame p inside, sameUnits p inside]
        · rw [take_bigblocks, bigs]
        · rw [take_pages, kept]
      · exact absurd roomy full

end

end Ucore.KmallocProofs
