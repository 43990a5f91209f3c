import Ucore.KmallocRuns

/-! What holds in every state of a run of the heap, and for which sizes `kmalloc`
gives what it is asked for: the threshold of `__kmalloc`, the assertion of
`slob_alloc` and the order of `find_order` do not fit together at all of them. -/
namespace Ucore.KmallocSafety
open Kmalloc KmallocProofs KmallocRuns Extents

variable {π : Type} {allocator : PageAllocator π} {held : π → List Extent} {arena : Nat} {start : π}
  {system : System π} {chunks : Finset Nat} {heapPages : List Nat}

/-! ## Runs -/

theorem init_sound (nothing : held start = []) :
    Sound held arena ⟨kmallocInit arena start, []⟩ {arena} [] := by
  have units : (kmallocInit arena start).units arena = 1 := by simp [kmallocInit]
  refine ⟨⟨⟨⟨by simp [kmallocInit], by simp [kmallocInit]⟩, ?_, by simp⟩, by simp [kmallocInit], ⟨by simp, units⟩,
    by simp [pieces, kmallocInit], by simp [pieces, kmallocInit], by simp [pieces, kmallocInit], ?_, by simp, ?_⟩,
    ⟨?_, by simp [obtained, kmallocInit], by simp [obtained, kmallocInit]⟩, by simp [kmallocInit], by simp, by simp,
    by simp, by simp⟩
  · intro c inside
    rw [Finset.mem_singleton.mp inside, units]
    exact one_pos
  · rintro i (⟨c, inside, low, high⟩ | ⟨p, inside, -⟩)
    · rw [Finset.mem_singleton.mp inside] at low high
      rw [units] at high
      exact Or.inl ⟨low, by omega⟩
    · simp [pieces, kmallocInit] at inside
  · simp [total, pieces, kmallocInit]
  · simp [obtained, kmallocInit, nothing]

/-- What `kmalloc` returns does not depend on the turns. -/
theorem returns_agree {heap after other : Heap π} {size turns : Nat} {result answer : Option Nat}
    (returns : Returns allocator heap size result after)
    (ran : kmalloc allocator turns heap size = .ok (answer, other)) : answer = result ∧ other = after := by
  obtain ⟨bound, runs⟩ := returns
  have same := (kmalloc_more ran (le_max_left turns bound)).symm.trans (runs _ (le_max_right turns bound))
  cases same
  exact ⟨rfl, rfl⟩

theorem frees_agree {heap after other : Heap π} {block turns : Nat} (frees : Frees allocator heap block after)
    (ran : kfree allocator turns heap block = .ok other) : other = after := by
  obtain ⟨bound, runs⟩ := frees
  have same := (kfree_more ran (le_max_left turns bound)).symm.trans (runs _ (le_max_right turns bound))
  cases same
  rfl

/-- A call of `kmalloc` that returns leaves a state of the run. -/
theorem kmalloc_sound (sound : Sound held arena system chunks heapPages) (lawful : Lawful allocator held arena)
    {size turns : Nat} (asked : 1 ≤ size) {result : Option Nat} {after : Heap π}
    (ran : kmalloc allocator turns system.heap size = .ok (result, after)) :
    ∃ chunks' others, Sound held arena (returned system size result after) chunks' others := by
  by_cases below : size < pageSize - slobUnit
  · by_cases fits : size + 2 * slobUnit < pageSize
    · obtain ⟨_, _, returns, sound'⟩ := kmalloc_small sound lawful asked fits
      obtain ⟨rfl, rfl⟩ := returns_agree returns ran
      exact sound'
    · rw [kmalloc_between (by omega) below] at ran
      cases ran
  · obtain ⟨_, _, returns, sound', -⟩ := kmalloc_big sound lawful asked below
    obtain ⟨rfl, rfl⟩ := returns_agree returns ran
    exact sound'

theorem kfree_returns (sound : Sound held arena system chunks heapPages) (lawful : Lawful allocator held arena)
    {block : Block} (member : block ∈ system.live) :
    ∃ after, Frees allocator system.heap block.addr after ∧
      ∃ chunks', Sound held arena ⟨after, system.live.erase block⟩ chunks' heapPages := by
  by_cases isSmall : block.isSmall
  · obtain ⟨after, frees, -, sound'⟩ := kfree_small allocator sound member isSmall
    exact ⟨after, frees, sound'⟩
  · obtain ⟨after, frees, -, -, sound'⟩ := kfree_big sound lawful member isSmall
    exact ⟨after, frees, sound'⟩

theorem reachable_sound (lawful : Lawful allocator held arena) (nothing : held start = [])
    (reachable : Reachable allocator arena start system) :
    ∃ chunks heapPages, Sound held arena system chunks heapPages := by
  induction reachable with
  | init => exact ⟨_, _, init_sound nothing⟩
  | next reachable step ih =>
    obtain ⟨chunks, heapPages, sound⟩ := ih
    cases step with
    | refused asked ran => exact kmalloc_sound sound lawful asked ran
    | given asked ran => exact kmalloc_sound sound lawful asked ran
    | freed member ran =>
      obtain ⟨after, frees, chunks', sound'⟩ := kfree_returns sound lawful member
      obtain rfl := frees_agree frees ran
      exact ⟨chunks', heapPages, sound'⟩

/-! ## What the invariant says -/

/-- The bytes that a live block has, as `kfree` finds them. -/
def area (heap : Heap π) (block : Block) : Extent :=
  match bigAt heap block.addr with
  | some big => pagesAt block.addr (2 ^ big.order)
  | none => ⟨block.addr, slobUnit * (heap.units (block.addr - slobUnit) - 1)⟩

/-- The heap as the claims of its callers need it: the free list is a ring in the order of the
addresses that comes by every free chunk in one round, with a gap between any two;
every unit is free, in a live small block or in the header of a big one; the live
blocks share no byte with each other, a chunk or a header; and the pages that are held
are those of the heap and those of the big blocks. -/
structure Ordered (held : π → List Extent) (arena : Nat) (system : System π) (chunks : Finset Nat)
    (heapPages : List Nat) : Prop where
  ring : SortedRing system.heap.next chunks
  start : system.heap.slobfree ∈ chunks
  round : ∀ c ∈ chunks, ∃ k < chunks.card, system.heap.next^[k] system.heap.slobfree = c
  arena : arena ∈ chunks
  gap : ∀ c ∈ chunks, ∀ d ∈ chunks, c < d → c + slobUnit * system.heap.units c < d
  units : total system.heap chunks + ((system.live.filter Block.isSmall).map fun block =>
      system.heap.units (block.addr - slobUnit)).sum + 2 * system.heap.bigblocks.length = 1 + 256 * heapPages.length
  apart : system.live.Pairwise fun a b => Apart (area system.heap a) (area system.heap b)
  free : ∀ block ∈ system.live, ∀ i, (area system.heap block).Has i → ¬Covered system.heap chunks i
  headers : ∀ block ∈ system.live, ∀ big ∈ system.heap.bigblocks, Apart (area system.heap block) (headerPiece big)
  pages : (held system.heap.pages).Perm (heapPages.map (pagesAt · 1) ++
    system.heap.bigblocks.map fun big => pagesAt big.pages (2 ^ big.order))

theorem area_small (sound : Sound held arena system chunks heapPages) {block : Block} (member : block ∈ system.live)
    (isSmall : block.isSmall) :
    area system.heap block = ⟨block.addr, slobUnit * (slobUnits (block.size + slobUnit) - 1)⟩ := by
  rw [area, sound.bigAt_small member isSmall, (sound.small block member isSmall).2]

theorem area_big (sound : Sound held arena system chunks heapPages) {block : Block} (member : block ∈ system.live)
    (isBig : ¬block.isSmall) : area system.heap block = pagesAt block.addr (2 ^ orderFor block.size) := by
  obtain ⟨big, first, last, finds, -, order, -⟩ := sound.bigAt_big member isBig
  rw [area, finds, ← order]

/-- All that a block takes up, its header with it. -/
def territory (block : Block) : Extent :=
  if block.isSmall then smallPiece block else pagesAt block.addr (2 ^ orderFor block.size)

theorem territory_positive {block : Block} (asked : 1 ≤ block.size) : 0 < (territory block).size := by
  unfold territory
  split_ifs
  · unfold smallPiece slobUnits slobUnit
    dsimp only
    omega
  · exact pagesAt_positive _ _

theorem area_in_territory (sound : Sound held arena system chunks heapPages) {block : Block}
    (member : block ∈ system.live) {i : Nat} (has : (area system.heap block).Has i) : (territory block).Has i := by
  by_cases isSmall : block.isSmall
  · have above := (sound.small block member isSmall).1
    rw [area_small sound member isSmall] at has
    rw [territory, if_pos isSmall]
    unfold smallPiece Extent.Has Extent.stop slobUnits slobUnit at *
    dsimp only at *
    omega
  · rw [area_big sound member isSmall] at has
    rwa [territory, if_neg isSmall]

theorem area_positive (sound : Sound held arena system chunks heapPages) {block : Block}
    (member : block ∈ system.live) : 0 < (area system.heap block).size := by
  by_cases isSmall : block.isSmall
  · have asked := sound.asked block member
    rw [area_small sound member isSmall]
    unfold slobUnits slobUnit
    dsimp only
    omega
  · rw [area_big sound member isSmall]
    exact pagesAt_positive _ _

/-- A byte of a block that is not small is no byte of the heap. -/
theorem territory_offHeap (sound : Sound held arena system chunks heapPages) {block : Block}
    (member : block ∈ system.live) (isBig : ¬block.isSmall) {i : Nat} (has : (territory block).Has i) :
    arena + slobUnit ≤ i ∧ ∀ page ∈ heapPages, ¬(page ≤ i ∧ i < page + pageSize) := by
  obtain ⟨big, inBigs, same, order⟩ := sound.big block member isBig
  rw [territory, if_neg isBig, ← same, ← order] at has
  refine ⟨?_, fun page inHeap inside => ?_⟩
  · have high := sound.paged.high _ (List.mem_append_right _
      (List.mem_map_of_mem (f := fun big : BigBlock => pagesAt big.pages (2 ^ big.order)) inBigs))
    simp only [pagesAt, Extent.Has] at high has
    omega
  · have far := sound.paged.cross inHeap inBigs
    simp only [Apart, pagesAt, Extent.Has, Extent.stop, Nat.mul_one] at far has
    omega

theorem territory_free (sound : Sound held arena system chunks heapPages) {block : Block}
    (member : block ∈ system.live) {i : Nat} (has : (territory block).Has i) : ¬Covered system.heap chunks i := by
  by_cases isSmall : block.isSmall
  · rw [territory, if_pos isSmall] at has
    exact sound.owns.taken _ (smallPiece_mem member isSmall) i has
  · obtain ⟨above, off⟩ := territory_offHeap sound member isSmall has
    intro covered
    rcases sound.owns.inside i (Or.inl covered) with inArena | ⟨page, inHeap, inside⟩
    · omega
    · exact off page inHeap inside

theorem territory_apart (sound : Sound held arena system chunks heapPages) {a b : Block} (inA : a ∈ system.live)
    (inB : b ∈ system.live) (other : a.addr ≠ b.addr) : Apart (territory a) (territory b) := by
  refine apart_of_disjoint (territory_positive (sound.asked a inA)) (territory_positive (sound.asked b inB))
    fun i hasA hasB => ?_
  by_cases smallA : a.isSmall <;> by_cases smallB : b.isSmall
  · rw [territory, if_pos smallA] at hasA
    rw [territory, if_pos smallB] at hasB
    have differ : smallPiece a ≠ smallPiece b := by
      intro same
      have aboveA := (sound.small a inA smallA).1
      have aboveB := (sound.small b inB smallB).1
      have start := congrArg Extent.start same
      simp only [smallPiece] at start
      omega
    have far := sound.owns.apart.forall (smallPiece_mem inA smallA) (smallPiece_mem inB smallB) differ
    unfold Apart Extent.Has at *
    omega
  · rw [territory, if_pos smallA] at hasA
    obtain ⟨⟨page, inHeap, inside⟩, -⟩ := sound.owns.high (smallPiece_mem inA smallA) hasA
    exact (territory_offHeap sound inB smallB hasB).2 page inHeap inside
  · rw [territory, if_pos smallB] at hasB
    obtain ⟨⟨page, inHeap, inside⟩, -⟩ := sound.owns.high (smallPiece_mem inB smallB) hasB
    exact (territory_offHeap sound inA smallA hasA).2 page inHeap inside
  · obtain ⟨bigA, inBigsA, sameA, orderA⟩ := sound.big a inA smallA
    obtain ⟨bigB, inBigsB, sameB, orderB⟩ := sound.big b inB smallB
    rw [territory, if_neg smallA] at hasA
    rw [territory, if_neg smallB] at hasB
    have inPages : ∀ big ∈ system.heap.bigblocks, pagesAt big.pages (2 ^ big.order) ∈
        obtained heapPages system.heap.bigblocks := fun big inBigs => List.mem_append_right _
      (List.mem_map_of_mem (f := fun big : BigBlock => pagesAt big.pages (2 ^ big.order)) inBigs)
    have far := sound.paged.apart.forall (inPages bigA inBigsA) (inPages bigB inBigsB) fun same => other (by
      have start := congrArg Extent.start same
      simp only [pagesAt] at start
      omega)
    rw [sameA, orderA, sameB, orderB] at far
    unfold Apart Extent.Has at *
    omega

theorem territory_headers (sound : Sound held arena system chunks heapPages) {block : Block}
    (member : block ∈ system.live) {big : BigBlock} (inBigs : big ∈ system.heap.bigblocks) :
    Apart (territory block) (headerPiece big) := by
  have inPieces : headerPiece big ∈ pieces system := List.mem_append_right _ (List.mem_map_of_mem inBigs)
  refine apart_of_disjoint (territory_positive (sound.asked block member))
    (by decide : 0 < slobUnit * slobUnits sizeofBigblock) fun i has inHeader => ?_
  by_cases isSmall : block.isSmall
  · have cross := (List.pairwise_append.mp sound.owns.apart).2.2 (smallPiece block)
      (List.mem_map_of_mem (List.mem_filter.mpr ⟨member, isSmall⟩)) (headerPiece big) (List.mem_map_of_mem inBigs)
    rw [territory, if_pos isSmall] at has
    unfold Apart Extent.Has at *
    omega
  · obtain ⟨⟨page, inHeap, inside⟩, -⟩ := sound.owns.high inPieces inHeader
    exact (territory_offHeap sound member isSmall has).2 page inHeap inside

/-- What lies within is apart from what its surroundings are apart from. -/
theorem Apart.within {p q inner outer : Extent} (apart : Apart p q) (positive : 0 < inner.size)
    (positive' : 0 < outer.size) (inP : ∀ i, inner.Has i → p.Has i) (inQ : ∀ i, outer.Has i → q.Has i) :
    Apart inner outer := by
  refine apart_of_disjoint positive positive' fun i has has' => ?_
  have one := inP i has
  have other := inQ i has'
  unfold Apart Extent.Has at *
  omega

theorem units_sum (sound : Sound held arena system chunks heapPages) :
    total system.heap chunks + ((system.live.filter Block.isSmall).map fun block =>
      system.heap.units (block.addr - slobUnit)).sum + 2 * system.heap.bigblocks.length =
        1 + 256 * heapPages.length := by
  have sum := sound.owns.sum
  have smalls : ((system.live.filter Block.isSmall).map fun block => system.heap.units (block.addr - slobUnit)) =
      (system.live.filter Block.isSmall).map fun block => slobUnits (block.size + slobUnit) :=
    List.map_congr_left fun block member =>
      (sound.small block (List.mem_filter.mp member).1 (List.mem_filter.mp member).2).2
  have bytes : ((system.live.filter Block.isSmall).map fun block => slobUnit * slobUnits (block.size + slobUnit)).sum =
      slobUnit * ((system.live.filter Block.isSmall).map fun block => slobUnits (block.size + slobUnit)).sum :=
    List.sum_map_mul_left ..
  have headers : (system.heap.bigblocks.map (Extent.size ∘ headerPiece)).sum = 32 * system.heap.bigblocks.length := by
    have each : system.heap.bigblocks.map (Extent.size ∘ headerPiece) = system.heap.bigblocks.map fun _ => 32 :=
      List.map_congr_left fun _ _ => rfl
    rw [each, List.map_const', List.sum_replicate, smul_eq_mul, Nat.mul_comm]
  rw [pieces, List.map_append, List.map_map, List.map_map, List.sum_append, headers,
    show Extent.size ∘ smallPiece = fun block : Block => slobUnit * slobUnits (block.size + slobUnit) from rfl, bytes] at sum
  rw [smalls]
  unfold slobUnit pageSize at *
  omega

theorem sound_ordered (sound : Sound held arena system chunks heapPages) :
    Ordered held arena system chunks heapPages := by
  refine ⟨sound.owns.listed.ring, sound.owns.start,
    fun c inside => sound.owns.listed.ring.reaches sound.owns.start inside, sound.owns.rooted.1, ?_, units_sum sound,
    ?_, fun block member i has => territory_free sound member (area_in_territory sound member has),
    fun block member big inBigs => ?_, sound.paged.held⟩
  · intro c inC d inD below
    obtain ⟨disjoint, notTouching⟩ := sound.owns.listed.apart c inC d inD below
    exact lt_of_le_of_ne disjoint (notTouching (Finset.notMem_empty _))
  · have distinct := List.Nodup.of_map _ sound.distinct
    refine distinct.pairwise_of_forall_ne fun a inA b inB other => ?_
    have apart := territory_apart sound inA inB fun same => other
      (List.inj_on_of_nodup_map sound.distinct inA inB same)
    exact Apart.within apart (area_positive sound inA) (area_positive sound inB)
      (fun _ => area_in_territory sound inA) fun _ => area_in_territory sound inB
  · exact Apart.within (territory_headers sound member inBigs) (area_positive sound member)
      (by decide : 0 < slobUnit * slobUnits sizeofBigblock) (fun _ => area_in_territory sound member) fun _ has => has

/-- In every state that calls of `kmalloc` and `kfree` lead to, the heap is in order; the
loops of the next call end; and `kfree` gives the page allocator the pages back that
`kmalloc` had from it. -/
theorem slob_heap_ordered (lawful : Lawful allocator held arena) (nothing : held start = [])
    (reachable : Reachable allocator arena start system) :
    (∃ chunks heapPages, Ordered held arena system chunks heapPages) ∧
      (∀ size, 1 ≤ size → ∃ bound, ∀ turns, bound ≤ turns →
        kmalloc allocator turns system.heap size ≠ .error .unfinished) ∧
      (∀ block ∈ system.live, ∃ after, Frees allocator system.heap block.addr after) ∧
      (∀ turns size addr after, 1 ≤ size → ¬(Block.mk addr size).isSmall →
        kmalloc allocator turns system.heap size = .ok (some addr, after) →
          ∃ pages, allocator.alloc pages (2 ^ orderFor size) = (some addr, after.pages)) ∧
      ∀ block ∈ system.live, ¬block.isSmall → ∀ turns after, kfree allocator turns system.heap block.addr = .ok after →
        after.pages = allocator.free system.heap.pages block.addr (2 ^ orderFor block.size) ∧
          (held system.heap.pages).Perm (pagesAt block.addr (2 ^ orderFor block.size) :: held after.pages) := by
  obtain ⟨chunks, heapPages, sound⟩ := reachable_sound lawful nothing reachable
  refine ⟨⟨chunks, heapPages, sound_ordered sound⟩, fun size asked => ?_, fun block member => ?_,
    fun turns size addr after asked isBig ran => ?_, fun block member isBig turns after ran => ?_⟩
  · by_cases below : size < pageSize - slobUnit
    · by_cases fits : size + 2 * slobUnit < pageSize
      · obtain ⟨_, _, ⟨bound, runs⟩, -⟩ := kmalloc_small sound lawful asked fits
        exact ⟨bound, fun turns longer => by rw [runs turns longer]; simp⟩
      · exact ⟨0, fun turns _ => by rw [kmalloc_between (by omega) below]; simp⟩
    · obtain ⟨_, _, ⟨bound, runs⟩, -⟩ := kmalloc_big sound lawful asked below
      exact ⟨bound, fun turns longer => by rw [runs turns longer]; simp⟩
  · obtain ⟨after, frees, -⟩ := kfree_returns sound lawful member
    exact ⟨after, frees⟩
  · have above : ¬size < pageSize - slobUnit := by simpa [Block.isSmall] using isBig
    obtain ⟨result, other, returns, -, -, gave⟩ := kmalloc_big sound lawful asked above
    obtain ⟨rfl, rfl⟩ := returns_agree returns ran
    exact gave addr rfl
  · obtain ⟨other, frees, same, leaves, -⟩ := kfree_big sound lawful member isBig
    rw [frees_agree frees ran]
    exact ⟨same, leaves⟩

/-! ## A page allocator -/

deriving instance DecidableEq for Extent

/-- Hands out the pages from `next` on, one block behind the other. -/
structure Bump where
  next : Nat
  out : List Extent
  aligned : next % pageSize = 0
  low : pageSize ≤ next
  below : ∀ e ∈ out, e.stop ≤ next

def bump : PageAllocator Bump where
  alloc pages count := (some pages.next, {
    next := pages.next + pageSize * count
    out := pagesAt pages.next count :: pages.out
    aligned := by rw [Nat.add_mul_mod_self_left, pages.aligned]
    low := Nat.le_add_right_of_le pages.low
    below := by
      intro e inside
      rcases List.mem_cons.mp inside with rfl | old
      · exact le_rfl
      · exact Nat.le_add_right_of_le (pages.below e old) })
  free pages addr count := { pages with
    out := pages.out.erase (pagesAt addr count)
    below := fun e inside => pages.below e (List.mem_of_mem_erase inside) }

def bumpStart : Bump := ⟨pageSize, [], rfl, le_rfl, by simp⟩

theorem bump_lawful : Lawful bump Bump.out 16 := by
  refine ⟨?_, ?_, ?_⟩
  · rintro pages count addr rest - ⟨⟩
    refine ⟨pages.aligned, lt_of_lt_of_le (by decide) pages.low, fun e inside => Or.inr (pages.below e inside),
      List.Perm.refl _⟩
  · rintro pages count rest ⟨⟩
  · intro pages count addr others perm
    have erased := perm.erase (pagesAt addr count)
    rwa [List.erase_cons_head] at erased

/-- Two small blocks and a big one are given, and the first of them is given back. -/
theorem slob_heap_ordered_blocks : ∃ system : System Bump, system.live.map Block.size = [5000, 40] ∧
    (∃ chunks heapPages, Ordered Bump.out 16 system chunks heapPages) := by
  have first : Reachable bump 16 bumpStart _ := .next .init (.given (by decide : 1 ≤ 100)
    (rfl : kmalloc bump 9 (kmallocInit 16 bumpStart) 100 = .ok (some _, _)))
  have second : Reachable bump 16 bumpStart _ := .next first (.given (by decide : 1 ≤ 40)
    (rfl : kmalloc bump 9 _ 40 = .ok (some _, _)))
  have third : Reachable bump 16 bumpStart _ := .next second (.given (by decide : 1 ≤ 5000)
    (rfl : kmalloc bump 9 _ 5000 = .ok (some _, _)))
  have last : Reachable bump 16 bumpStart _ := .next third (.freed (List.mem_of_getElem? (rfl : _[2]? = some _))
    (rfl : kfree bump 9 _ _ = .ok _))
  exact ⟨_, rfl, (slob_heap_ordered bump_lawful rfl last).1⟩

/-! ## Sizes -/

/-- The sizes for which the three computations fit together. -/
def Fits (size : Nat) : Prop :=
  size < 4064 ∨ (4080 ≤ size ∧ size < 2 ^ 31 ∧ ∀ k, 1 ≤ k → ¬(4096 * 2 ^ k < size ∧ size < 4097 * 2 ^ k))

theorem toInt_small {size : Nat} (small : size < 2 ^ 31) : toInt size = size := by
  have value : (BitVec.ofNat 32 size).toInt = size := by
    simp only [BitVec.toInt_eq_toNat_bmod, BitVec.toNat_ofNat, Int.bmod_def]
    omega
  rw [toInt, value, Int.toNat_natCast]

end Ucore.KmallocSafety
