import Ucore.KmallocProofs

/-! Runs of `kmalloc` and `kfree`, in any order and of any sizes, with the blocks that
are live. In every state of a run the free chunks, the small blocks and the
headers of the big ones make up the arena and the pages of the heap, and each big
block has the pages that it was given. -/
namespace Ucore.KmallocRuns
open Kmalloc KmallocProofs Extents

variable {π : Type} {allocator : PageAllocator π} {heap : Heap π} {turns more : Nat}

/-! ## More turns change nothing -/

theorem findPlace_more {next : Nat → Nat} {b cur place : Nat} (ran : findPlace next b turns cur = .ok place)
    (longer : turns ≤ more) : findPlace next b more cur = .ok place := by
  induction turns generalizing cur more with
  | zero => cases ran
  | succ turns ih =>
    obtain ⟨more, rfl⟩ : ∃ rest, more = rest + 1 := ⟨more - 1, by omega⟩
    rw [findPlace] at ran ⊢
    split_ifs at ran ⊢
    · exact ran
    · exact ih ran (by omega)

theorem bind_ok {α β : Type} {first : Except Stopped α} {next : α → Except Stopped β} {result : β} :
    (first >>= next) = .ok result ↔ ∃ value, first = .ok value ∧ next value = .ok result := by
  cases first with
  | error why => exact iff_of_false (fun ran => by cases ran) fun ⟨value, ran, _⟩ => by cases ran
  | ok value => exact ⟨fun ran => ⟨value, rfl, ran⟩, fun ⟨other, same, ran⟩ => by cases same; exact ran⟩

theorem slobFree_more {b size : Nat} {after : Heap π} (ran : slobFree turns heap b size = .ok after)
    (longer : turns ≤ more) : slobFree more heap b size = .ok after := by
  rw [slobFree_eq] at ran ⊢
  split_ifs at ran ⊢
  · exact ran
  · obtain ⟨place, found, ran⟩ := bind_ok.mp ran
    exact bind_ok.mpr ⟨place, findPlace_more found longer, ran⟩

theorem slobSearch_more {units prev cur : Nat} {result : Option Nat × Heap π}
    (ran : slobSearch allocator units turns heap prev cur = .ok result) (longer : turns ≤ more) :
    slobSearch allocator units more heap prev cur = .ok result := by
  induction turns generalizing heap prev cur more with
  | zero => cases ran
  | succ turns ih =>
    obtain ⟨more, rfl⟩ : ∃ rest, more = rest + 1 := ⟨more - 1, by omega⟩
    rw [slobSearch] at ran ⊢
    split_ifs at ran ⊢
    · exact ran
    · rcases answer : allocator.alloc heap.pages 1 with ⟨given, rest⟩
      rw [answer] at ran
      cases given with
      | none => exact ran
      | some page =>
        obtain ⟨between, freed, ran⟩ := bind_ok.mp ran
        exact bind_ok.mpr ⟨between, slobFree_more freed (by omega), ih ran (by omega)⟩
    · exact ih ran (by omega)

theorem slobAlloc_more {size : Nat} {result : Option Nat × Heap π}
    (ran : slobAlloc allocator turns heap size = .ok result) (longer : turns ≤ more) :
    slobAlloc allocator more heap size = .ok result := by
  unfold slobAlloc at ran ⊢
  split_ifs at ran ⊢
  exact slobSearch_more ran longer

theorem kmalloc_more {size : Nat} {result : Option Nat × Heap π}
    (ran : kmalloc allocator turns heap size = .ok result) (longer : turns ≤ more) :
    kmalloc allocator more heap size = .ok result := by
  unfold kmalloc at ran ⊢
  split_ifs at ran ⊢
  · obtain ⟨value, taken, ran⟩ := bind_ok.mp ran
    exact bind_ok.mpr ⟨value, slobAlloc_more taken longer, ran⟩
  · obtain ⟨⟨header, between⟩, taken, ran⟩ := bind_ok.mp ran
    refine bind_ok.mpr ⟨⟨header, between⟩, slobAlloc_more taken longer, ?_⟩
    cases header with
    | none => exact ran
    | some header =>
      dsimp only at ran ⊢
      rcases answer : allocator.alloc between.pages (2 ^ orderFor size) with ⟨given, rest⟩
      rw [answer] at ran
      cases given with
      | some pages => exact ran
      | none =>
        obtain ⟨after, freed, ran⟩ := bind_ok.mp ran
        exact bind_ok.mpr ⟨after, slobFree_more freed longer, ran⟩

theorem kfree_more {block : Nat} {after : Heap π} (ran : kfree allocator turns heap block = .ok after)
    (longer : turns ≤ more) : kfree allocator more heap block = .ok after := by
  unfold kfree at ran ⊢
  by_cases null : block = 0
  · rw [if_pos null] at ran ⊢
    exact ran
  · rw [if_neg null] at ran ⊢
    rcases found : (if block % pageSize = 0 then heap.bigblocks.find? (·.pages = block) else none) with _ | big
    all_goals rw [found] at ran ⊢
    · exact slobFree_more ran longer
    · exact slobFree_more ran longer

/-! ## The state of a run -/

/-- What a call of `kmalloc` was asked for and returned. -/
structure Block where
  addr : Nat
  size : Nat
  deriving DecidableEq

def Block.isSmall (block : Block) : Bool := block.size < pageSize - slobUnit

/-- The heap with the blocks that are live. -/
structure System (π : Type) where
  heap : Heap π
  live : List Block

/-- Calls on the heap that return. -/
inductive Step (allocator : PageAllocator π) : System π → System π → Prop
  | refused {heap after live turns size} (asked : 1 ≤ size)
      (ran : kmalloc allocator turns heap size = .ok (none, after)) :
      Step allocator ⟨heap, live⟩ ⟨after, live⟩
  | given {heap after live turns size addr} (asked : 1 ≤ size)
      (ran : kmalloc allocator turns heap size = .ok (some addr, after)) :
      Step allocator ⟨heap, live⟩ ⟨after, ⟨addr, size⟩ :: live⟩
  | freed {heap after live turns block} (member : block ∈ live)
      (ran : kfree allocator turns heap block.addr = .ok after) :
      Step allocator ⟨heap, live⟩ ⟨after, live.erase block⟩

/-- The states of the runs that begin with nothing but the arena. -/
inductive Reachable (allocator : PageAllocator π) (arena : Nat) (pages : π) : System π → Prop
  | init : Reachable allocator arena pages ⟨kmallocInit arena pages, []⟩
  | next {before after} (reachable : Reachable allocator arena pages before) (step : Step allocator before after) :
      Reachable allocator arena pages after

/-- `count` pages at `addr`. -/
def pagesAt (addr count : Nat) : Extent := ⟨addr, pageSize * count⟩

/-- The page allocator hands out pages apart from those that are held, and above the
image of the kernel, where the arena is. -/
structure Lawful (allocator : PageAllocator π) (held : π → List Extent) (arena : Nat) : Prop where
  given : ∀ pages count addr rest, 0 < count → allocator.alloc pages count = (some addr, rest) →
    addr % pageSize = 0 ∧ arena + slobUnit < addr ∧ (∀ e ∈ held pages, Apart (pagesAt addr count) e) ∧
      (held rest).Perm (pagesAt addr count :: held pages)
  refused : ∀ pages count rest, allocator.alloc pages count = (none, rest) → (held rest).Perm (held pages)
  freed : ∀ pages count addr others, (held pages).Perm (pagesAt addr count :: others) →
    (held (allocator.free pages addr count)).Perm others

/-- The units of a small block, with its header. -/
def smallPiece (block : Block) : Extent :=
  ⟨block.addr - slobUnit, slobUnit * slobUnits (block.size + slobUnit)⟩

def headerPiece (big : BigBlock) : Extent := ⟨big.header, slobUnit * slobUnits sizeofBigblock⟩

/-- What is taken from the heap. -/
def pieces (system : System π) : List Extent :=
  (system.live.filter Block.isSmall).map smallPiece ++ system.heap.bigblocks.map headerPiece

/-- The pages that are in use, for the heap and for big blocks. -/
def obtained (heapPages : List Nat) (bigblocks : List BigBlock) : List Extent :=
  heapPages.map (pagesAt · 1) ++ bigblocks.map fun big => pagesAt big.pages (2 ^ big.order)

/-- The pages that the page allocator counts as held are these, apart from each other and above the arena. -/
structure Paged (held : π → List Extent) (arena : Nat) (pages : π) (heapPages : List Nat) (bigblocks : List BigBlock) :
    Prop where
  held : (held pages).Perm (obtained heapPages bigblocks)
  apart : (obtained heapPages bigblocks).Pairwise Apart
  high : ∀ e ∈ obtained heapPages bigblocks, arena + slobUnit < e.start

/-- The invariant of the runs. -/
structure Sound (held : π → List Extent) (arena : Nat) (system : System π) (chunks : Finset Nat)
    (heapPages : List Nat) : Prop where
  owns : Owns arena system.heap chunks (pieces system) heapPages
  paged : Paged held arena system.heap.pages heapPages system.heap.bigblocks
  aligned : ∀ big ∈ system.heap.bigblocks, big.pages % pageSize = 0
  asked : ∀ block ∈ system.live, 1 ≤ block.size
  small : ∀ block ∈ system.live, block.isSmall → slobUnit < block.addr ∧
    system.heap.units (block.addr - slobUnit) = slobUnits (block.size + slobUnit)
  big : ∀ block ∈ system.live, ¬block.isSmall → ∃ big ∈ system.heap.bigblocks, big.pages = block.addr ∧
    big.order = orderFor block.size
  distinct : (system.live.map Block.addr).Nodup

variable {held : π → List Extent} {arena : Nat} {pages rest : π} {heapPages : List Nat} {bigblocks : List BigBlock}

/-! ## The pages -/

namespace Paged

theorem of_perm {others : List Nat} {bigs : List BigBlock} {after : List Extent}
    (heldAfter : (held rest).Perm after) (perm : after.Perm (obtained others bigs)) (apart : after.Pairwise Apart)
    (high : ∀ e ∈ after, arena + slobUnit < e.start) : Paged held arena rest others bigs :=
  ⟨heldAfter.trans perm, (perm.pairwise_iff fun apart => Or.symm apart).mp apart,
    fun e inside => high e (perm.mem_iff.mpr inside)⟩

/-- Pages that are handed out keep away from those that are held. -/
theorem given (paged : Paged held arena pages heapPages bigblocks) (lawful : Lawful allocator held arena)
    {count addr : Nat} (positive : 0 < count) (answer : allocator.alloc pages count = (some addr, rest)) :
    (held rest).Perm (pagesAt addr count :: obtained heapPages bigblocks) ∧
      (pagesAt addr count :: obtained heapPages bigblocks).Pairwise Apart ∧
      (∀ e ∈ pagesAt addr count :: obtained heapPages bigblocks, arena + slobUnit < e.start) ∧
      addr % pageSize = 0 := by
  obtain ⟨aligned, high, apart, gives⟩ := lawful.given pages count addr rest positive answer
  refine ⟨gives.trans (paged.held.cons _), List.pairwise_cons.mpr ⟨fun e inside => ?_, paged.apart⟩, ?_, aligned⟩
  · exact apart e (paged.held.mem_iff.mpr inside)
  · intro e inside
    rcases List.mem_cons.mp inside with rfl | old
    · exact high
    · exact paged.high e old

theorem heapPage (paged : Paged held arena pages heapPages bigblocks) (lawful : Lawful allocator held arena)
    {page : Nat} (answer : allocator.alloc pages 1 = (some page, rest)) :
    Clear arena heapPages page ∧ Paged held arena rest (page :: heapPages) bigblocks := by
  obtain ⟨gives, apart, high, -⟩ := paged.given lawful one_pos answer
  refine ⟨⟨high _ List.mem_cons_self, fun other inside => ?_⟩, of_perm gives (List.Perm.refl _) apart high⟩
  have far := (List.pairwise_cons.mp apart).1 (pagesAt other 1)
    (List.mem_append_left _ (List.mem_map_of_mem inside))
  unfold Apart pagesAt Extent.stop at far
  simp only [Nat.mul_one] at far
  omega

theorem bigPages (paged : Paged held arena pages heapPages bigblocks) (lawful : Lawful allocator held arena)
    (header : Nat) {order addr : Nat} (answer : allocator.alloc pages (2 ^ order) = (some addr, rest)) :
    addr % pageSize = 0 ∧ Paged held arena rest heapPages (⟨header, order, addr⟩ :: bigblocks) := by
  obtain ⟨gives, apart, high, aligned⟩ := paged.given lawful (Nat.two_pow_pos order) answer
  exact ⟨aligned, of_perm gives List.perm_middle.symm apart high⟩

theorem refused (paged : Paged held arena pages heapPages bigblocks) (lawful : Lawful allocator held arena)
    {count : Nat} (answer : allocator.alloc pages count = (none, rest)) : Paged held arena rest heapPages bigblocks :=
  ⟨(lawful.refused _ _ _ answer).trans paged.held, paged.apart, paged.high⟩

/-- The pages of a big block go back as they were handed out. -/
theorem freeBig {first last : List BigBlock} {big : BigBlock}
    (paged : Paged held arena pages heapPages (first ++ big :: last)) (lawful : Lawful allocator held arena) :
    Paged held arena (allocator.free pages big.pages (2 ^ big.order)) heapPages (first ++ last) ∧
      (held pages).Perm (pagesAt big.pages (2 ^ big.order) ::
        held (allocator.free pages big.pages (2 ^ big.order))) := by
  have perm : (obtained heapPages (first ++ big :: last)).Perm
      (pagesAt big.pages (2 ^ big.order) :: obtained heapPages (first ++ last)) := by
    unfold obtained
    rw [List.map_append, List.map_cons, List.map_append, ← List.append_assoc, ← List.append_assoc]
    exact List.perm_middle
  have apart := (perm.pairwise_iff fun apart => Or.symm apart).mp paged.apart
  have rest := lawful.freed _ _ _ _ (paged.held.trans perm)
  refine ⟨⟨rest, (List.pairwise_cons.mp apart).2, fun e inside => ?_⟩, (paged.held.trans perm).trans (rest.symm.cons _)⟩
  exact paged.high e (perm.mem_iff.mpr (List.mem_cons_of_mem _ inside))

/-- A page of the heap is no page of a big block. -/
theorem cross (paged : Paged held arena pages heapPages bigblocks) {page : Nat} {big : BigBlock}
    (inHeap : page ∈ heapPages) (inBigs : big ∈ bigblocks) :
    Apart (pagesAt page 1) (pagesAt big.pages (2 ^ big.order)) :=
  (List.pairwise_append.mp paged.apart).2.2 _ (List.mem_map_of_mem inHeap) _
    (List.mem_map_of_mem (f := fun big : BigBlock => pagesAt big.pages (2 ^ big.order)) inBigs)

theorem bigs_apart (paged : Paged held arena pages heapPages bigblocks) :
    bigblocks.Pairwise fun a b => Apart (pagesAt a.pages (2 ^ a.order)) (pagesAt b.pages (2 ^ b.order)) :=
  List.pairwise_map.mp (List.pairwise_append.mp paged.apart).2.1

end Paged

theorem pagesAt_positive (addr order : Nat) : 0 < (pagesAt addr (2 ^ order)).size :=
  Nat.mul_pos (by decide) (Nat.two_pow_pos order)

/-! ## The blocks -/

/-- A byte of the heap lies in no page of a big block. -/
theorem Sound.offBig {system : System π} {chunks : Finset Nat} (sound : Sound held arena system chunks heapPages)
    {p : Extent} {big : BigBlock} {i : Nat} (member : p ∈ pieces system) (has : p.Has i)
    (inBigs : big ∈ system.heap.bigblocks) : ¬(pagesAt big.pages (2 ^ big.order)).Has i := by
  obtain ⟨⟨page, inHeap, low, high⟩, -⟩ := sound.owns.high member has
  have far := sound.paged.cross inHeap inBigs
  unfold Apart pagesAt Extent.stop at far
  simp only [pagesAt, Extent.Has, Extent.stop, Nat.mul_one] at far ⊢
  omega

/-- A live block lies within its piece, or where its pages begin. -/
inductive Home (system : System π) (block : Block) : Prop
  | small (isSmall : block.isSmall) (inside : (smallPiece block).Has block.addr)
  | big (isBig : ¬block.isSmall) (pages : BigBlock) (member : pages ∈ system.heap.bigblocks)
      (same : pages.pages = block.addr)

theorem smallPiece_has {block : Block} (asked : 1 ≤ block.size) (above : slobUnit < block.addr) :
    (smallPiece block).Has block.addr := by
  unfold smallPiece Extent.Has Extent.stop slobUnits slobUnit at *
  dsimp only
  omega

theorem smallPiece_mem {system : System π} {block : Block} (member : block ∈ system.live) (isSmall : block.isSmall) :
    smallPiece block ∈ pieces system :=
  List.mem_append_left _ (List.mem_map_of_mem (List.mem_filter.mpr ⟨member, isSmall⟩))

theorem Sound.home {system : System π} {chunks : Finset Nat} (sound : Sound held arena system chunks heapPages)
    {block : Block} (member : block ∈ system.live) : Home system block := by
  by_cases isSmall : block.isSmall
  · exact .small isSmall (smallPiece_has (sound.asked block member) (sound.small block member isSmall).1)
  · obtain ⟨big, inBigs, same, -⟩ := sound.big block member isSmall
    exact .big isSmall big inBigs same

/-- With a piece more taken for a small block the runs go on. -/
theorem Sound.smallGiven {system : System π} {chunks : Finset Nat} {others : List Nat} {size m : Nat} {after : Heap π}
    (sound : Sound held arena system chunks heapPages) (asked : 1 ≤ size) (below : size < pageSize - slobUnit)
    (taken : Taken arena system.heap after (slobUnits (size + slobUnit)) (pieces system) others m)
    (paged : Paged held arena after.pages others system.heap.bigblocks) :
    ∃ chunks', Sound held arena ⟨after, ⟨m + slobUnit, size⟩ :: system.live⟩ chunks' others := by
  obtain ⟨chunks', owns⟩ := taken.owns
  have isSmall : (Block.mk (m + slobUnit) size).isSmall := by simpa [Block.isSmall] using below
  have list : pieces ⟨after, ⟨m + slobUnit, size⟩ :: system.live⟩ =
      ⟨m, slobUnit * slobUnits (size + slobUnit)⟩ :: pieces system := by
    simp only [pieces, List.filter_cons, isSmall, if_true, List.map_cons, taken.bigblocks, List.cons_append]
    simp [smallPiece]
  have own : (Extent.mk m (slobUnit * slobUnits (size + slobUnit))).Has (m + slobUnit) := by
    unfold Extent.Has Extent.stop slobUnits slobUnit
    dsimp only
    omega
  have atStart : (Extent.mk m (slobUnit * slobUnits (size + slobUnit))).Has m :=
    ⟨le_rfl, lt_of_le_of_lt (Nat.le_add_right m slobUnit) own.2⟩
  have high := owns.high List.mem_cons_self own
  refine ⟨chunks', ⟨list ▸ owns, taken.bigblocks ▸ paged, taken.bigblocks ▸ sound.aligned, ?_, ?_, ?_, ?_⟩⟩
  · intro block member
    rcases List.mem_cons.mp member with rfl | old
    · exact asked
    · exact sound.asked block old
  · intro block member isSmall'
    rcases List.mem_cons.mp member with rfl | old
    · refine ⟨?_, by simpa using taken.own⟩
      have above := (owns.high List.mem_cons_self atStart).2
      dsimp only
      omega
    · obtain ⟨above, units⟩ := sound.small block old isSmall'
      exact ⟨above, (taken.frame _ (smallPiece_mem old isSmall')).trans units⟩
  · intro block member isBig
    rcases List.mem_cons.mp member with rfl | old
    · exact absurd isSmall isBig
    · obtain ⟨big, inBigs, rest⟩ := sound.big block old isBig
      exact ⟨big, taken.bigblocks ▸ inBigs, rest⟩
  · rw [List.map_cons, List.nodup_cons]
    refine ⟨fun inside => ?_, sound.distinct⟩
    obtain ⟨block, old, same⟩ := List.mem_map.mp inside
    dsimp only at same
    rcases sound.home old with ⟨isSmall', here⟩ | ⟨-, big, inBigs, samePages⟩
    · have far := (List.pairwise_cons.mp owns.apart).1 _ (smallPiece_mem old isSmall')
      rw [same] at here
      unfold Apart Extent.Has Extent.stop at *
      omega
    · obtain ⟨⟨page, inHeap, low, high⟩, -⟩ := high
      have far := paged.cross inHeap inBigs
      have positive := pagesAt_positive big.pages big.order
      simp only [Apart, pagesAt, Extent.stop, Nat.mul_one] at far positive
      omega

/-- Where the pieces and the blocks are the same the runs go on. -/
theorem Sound.unchanged {system : System π} {chunks chunks' : Finset Nat} {others : List Nat} {after : Heap π}
    (sound : Sound held arena system chunks heapPages) (owns : Owns arena after chunks' (pieces system) others)
    (frame : ∀ p ∈ pieces system, after.units p.start = system.heap.units p.start)
    (bigs : after.bigblocks = system.heap.bigblocks)
    (paged : Paged held arena after.pages others system.heap.bigblocks) :
    Sound held arena ⟨after, system.live⟩ chunks' others := by
  have list : pieces ⟨after, system.live⟩ = pieces system := by simp only [pieces, bigs]
  refine ⟨list ▸ owns, bigs ▸ paged, bigs ▸ sound.aligned, sound.asked, fun block member isSmall => ?_,
    fun block member isBig => ?_, sound.distinct⟩
  · obtain ⟨above, units⟩ := sound.small block member isSmall
    exact ⟨above, (frame _ (smallPiece_mem member isSmall)).trans units⟩
  · obtain ⟨big, inBigs, rest⟩ := sound.big block member isBig
    exact ⟨big, bigs ▸ inBigs, rest⟩

/-- With a header taken and pages given for a big block the runs go on. -/
theorem Sound.bigGiven {system : System π} {chunks : Finset Nat} {others : List Nat} {size header addr : Nat}
    {between : Heap π} (sound : Sound held arena system chunks heapPages) (lawful : Lawful allocator held arena)
    (asked : 1 ≤ size) (above : ¬size < pageSize - slobUnit)
    (taken : Taken arena system.heap between (slobUnits sizeofBigblock) (pieces system) others header)
    (paged : Paged held arena between.pages others system.heap.bigblocks)
    (answer : allocator.alloc between.pages (2 ^ orderFor size) = (some addr, rest)) :
    ∃ chunks', Sound held arena
      ⟨{ between with pages := rest, bigblocks := ⟨header, orderFor size, addr⟩ :: between.bigblocks },
        ⟨addr, size⟩ :: system.live⟩ chunks' others := by
  obtain ⟨chunks', owns⟩ := taken.owns
  obtain ⟨aligned, paged'⟩ := paged.bigPages lawful header answer
  have isBig : ¬(Block.mk addr size).isSmall := by simpa [Block.isSmall] using above
  have list : (Extent.mk header (slobUnit * slobUnits sizeofBigblock) :: pieces system).Perm
      (pieces ⟨{ between with pages := rest, bigblocks := ⟨header, orderFor size, addr⟩ :: between.bigblocks },
        ⟨addr, size⟩ :: system.live⟩) := by
    simp only [pieces, List.filter_cons, isBig, List.map_cons, taken.bigblocks]
    exact List.perm_middle.symm
  refine ⟨chunks', ⟨(owns.perm list).of_units (fun _ _ => rfl) rfl rfl, taken.bigblocks ▸ paged', ?_, ?_, ?_, ?_, ?_⟩⟩
  · intro big inBigs
    rcases List.mem_cons.mp inBigs with rfl | old
    · exact aligned
    · exact sound.aligned big (taken.bigblocks ▸ old)
  · intro block member
    rcases List.mem_cons.mp member with rfl | old
    · exact asked
    · exact sound.asked block old
  · intro block member isSmall
    rcases List.mem_cons.mp member with rfl | old
    · exact absurd isSmall isBig
    · obtain ⟨above, units⟩ := sound.small block old isSmall
      exact ⟨above, (taken.frame _ (smallPiece_mem old isSmall)).trans units⟩
  · intro block member isBig'
    rcases List.mem_cons.mp member with rfl | old
    · exact ⟨_, List.mem_cons_self, rfl, rfl⟩
    · obtain ⟨big, inBigs, same⟩ := sound.big block old isBig'
      exact ⟨big, List.mem_cons_of_mem _ (taken.bigblocks ▸ inBigs), same⟩
  · rw [List.map_cons, List.nodup_cons]
    refine ⟨fun inside => ?_, sound.distinct⟩
    obtain ⟨block, old, same⟩ := List.mem_map.mp inside
    dsimp only at same
    have positive := pagesAt_positive addr (orderFor size)
    rcases sound.home old with ⟨isSmall, here⟩ | ⟨-, big, inBigs, samePages⟩
    · obtain ⟨⟨page, inHeap, low, high⟩, -⟩ :=
        owns.high (List.mem_cons_of_mem _ (smallPiece_mem old isSmall)) here
      have far := paged'.cross inHeap List.mem_cons_self
      simp only [Apart, pagesAt, Extent.stop, Nat.mul_one] at far positive
      omega
    · have far := (List.pairwise_cons.mp paged'.bigs_apart).1 big inBigs
      have positive' := pagesAt_positive big.pages big.order
      simp only [Apart, pagesAt, Extent.stop] at far positive positive'
      omega

/-! ## `kmalloc` -/

/-- The state of the run when `kmalloc` has returned. -/
def returned (system : System π) (size : Nat) (result : Option Nat) (after : Heap π) : System π :=
  ⟨after, match result with
    | none => system.live
    | some addr => ⟨addr, size⟩ :: system.live⟩

/-- From some number of turns on `kmalloc` has this outcome. -/
def Returns (allocator : PageAllocator π) (heap : Heap π) (size : Nat) (result : Option Nat) (after : Heap π) : Prop :=
  ∃ bound, ∀ turns, bound ≤ turns → kmalloc allocator turns heap size = .ok (result, after)

theorem kmalloc_small {system : System π} {chunks : Finset Nat} {size : Nat}
    (sound : Sound held arena system chunks heapPages) (lawful : Lawful allocator held arena) (asked : 1 ≤ size)
    (below : size + 2 * slobUnit < pageSize) :
    ∃ result after, Returns allocator system.heap size result after ∧
      ∃ chunks' others, Sound held arena (returned system size result after) chunks' others := by
  have isSmall : size < pageSize - slobUnit := by
    unfold pageSize slobUnit at *
    omega
  obtain ⟨result, after, ran, outcome⟩ := slobAlloc_returns allocator sound.owns
    (by omega : size + slobUnit + slobUnit < pageSize)
    (by unfold slobUnits slobUnit; omega) (Nat.lt_succ_self (2 * chunks.card + 2))
    fun page rest answer => (sound.paged.heapPage lawful answer).1
  refine ⟨result.map (· + slobUnit), after, ⟨2 * chunks.card + 3, fun turns longer => ?_⟩, ?_⟩
  · rw [kmalloc, if_pos isSmall, slobAlloc_more ran longer]
    rfl
  · rcases outcome with ⟨-, m, rfl, taken, same⟩ | ⟨-, rest, answer, rfl, rfl⟩ | ⟨-, page, rest, m, answer, rfl, taken, same⟩
    · obtain ⟨chunks', sound'⟩ := sound.smallGiven asked isSmall taken (same ▸ sound.paged)
      exact ⟨chunks', heapPages, sound'⟩
    · exact ⟨chunks, heapPages, sound.unchanged (sound.owns.of_units (fun _ _ => rfl) rfl rfl) (fun _ _ => rfl) rfl
        (sound.paged.refused lawful answer)⟩
    · obtain ⟨chunks', sound'⟩ := sound.smallGiven asked isSmall taken (same ▸ (sound.paged.heapPage lawful answer).2)
      exact ⟨chunks', page :: heapPages, sound'⟩

/-- Between the threshold of `__kmalloc` and what `slob_alloc` asserts the system stops. -/
theorem kmalloc_between {size : Nat} (low : pageSize ≤ size + 2 * slobUnit) (high : size < pageSize - slobUnit)
    (turns : Nat) (heap : Heap π) : kmalloc allocator turns heap size = .error .assertion := by
  rw [kmalloc, if_pos high, slobAlloc, if_neg (by omega)]
  rfl

/-- The page allocator refuses what a big block needs: a page for its header where the
heap has no room for it, or the pages themselves. -/
def Refused (allocator : PageAllocator π) (heap : Heap π) (order : Nat) : Prop :=
  (Roomy heap (slobUnits sizeofBigblock) ∧ (allocator.alloc heap.pages (2 ^ order)).1 = none) ∨
    (¬Roomy heap (slobUnits sizeofBigblock) ∧ ((allocator.alloc heap.pages 1).1 = none ∨
      (allocator.alloc (allocator.alloc heap.pages 1).2 (2 ^ order)).1 = none))

/-- With the header taken all depends on the pages. -/
theorem kmalloc_headed {system : System π} {chunks : Finset Nat} {others : List Nat} {size header start : Nat}
    {between : Heap π} (sound : Sound held arena system chunks heapPages) (lawful : Lawful allocator held arena)
    (asked : 1 ≤ size) (above : ¬size < pageSize - slobUnit)
    (ran : slobAlloc allocator start system.heap sizeofBigblock = .ok (some header, between))
    (taken : Taken arena system.heap between (slobUnits sizeofBigblock) (pieces system) others header)
    (paged : Paged held arena between.pages others system.heap.bigblocks) :
    ∃ result after, Returns allocator system.heap size result after ∧
      (∃ chunks' others, Sound held arena (returned system size result after) chunks' others) ∧
      (result = none ↔ (allocator.alloc between.pages (2 ^ orderFor size)).1 = none) ∧
      ∀ addr, result = some addr → allocator.alloc between.pages (2 ^ orderFor size) = (some addr, after.pages) := by
  rcases answer : allocator.alloc between.pages (2 ^ orderFor size) with ⟨given, rest⟩
  cases given with
  | some addr =>
    obtain ⟨chunks', sound'⟩ := sound.bigGiven lawful asked above taken paged answer
    refine ⟨some addr, _, ⟨start, fun turns longer => ?_⟩, ⟨chunks', others, sound'⟩, by simp, ?_⟩
    · rw [kmalloc, if_neg above, slobAlloc_more ran longer]
      simp only [bind, Except.bind, answer]
    · rintro _ ⟨rfl⟩
      rfl
  | none =>
    obtain ⟨chunks', owns⟩ := taken.owns
    obtain ⟨grown, sameUnits, -⟩ := owns.readied (by decide : sizeofBigblock ≠ 0)
      (rfl : ({ between with pages := rest } : Heap π).units = _) rfl rfl
    obtain ⟨after, freeChunks, freed, owns', frame, -, -, bigs, kept⟩ := slobFree_returns grown le_rfl
    refine ⟨none, after, ⟨max start chunks'.card, fun turns longer => ?_⟩, ⟨freeChunks, others,
      sound.unchanged owns' (fun p inside => ?_) (bigs.trans taken.bigblocks) ?_⟩, by simp, by simp⟩
    · rw [kmalloc, if_neg above, slobAlloc_more ran (by omega)]
      simp only [bind, Except.bind, answer, slobFree_more freed (by omega : chunks'.card ≤ turns)]
    · rw [frame p inside, sameUnits p inside, taken.frame p inside]
    · rw [kept]
      exact paged.refused lawful answer

theorem kmalloc_big {system : System π} {chunks : Finset Nat} {size : Nat}
    (sound : Sound held arena system chunks heapPages) (lawful : Lawful allocator held arena) (asked : 1 ≤ size)
    (above : ¬size < pageSize - slobUnit) :
    ∃ result after, Returns allocator system.heap size result after ∧
      (∃ chunks' others, Sound held arena (returned system size result after) chunks' others) ∧
      (result = none ↔ Refused allocator system.heap (orderFor size)) ∧
      ∀ addr, result = some addr → ∃ pages, allocator.alloc pages (2 ^ orderFor size) = (some addr, after.pages) := by
  obtain ⟨header, between, ran, outcome⟩ := slobAlloc_returns allocator sound.owns
    (by decide : sizeofBigblock + slobUnit < pageSize) (by decide) (Nat.lt_succ_self (2 * chunks.card + 2))
    fun page rest answer => (sound.paged.heapPage lawful answer).1
  rcases outcome with ⟨room, m, rfl, taken, same⟩ | ⟨full, rest, answer, rfl, rfl⟩ |
    ⟨full, page, rest, m, answer, rfl, taken, same⟩
  · obtain ⟨result, after, returns, sound', refused, gave⟩ :=
      kmalloc_headed sound lawful asked above ran taken (same ▸ sound.paged)
    refine ⟨result, after, returns, sound', refused.trans ?_, fun addr given => ⟨_, gave addr given⟩⟩
    simp [Refused, room, same]
  · refine ⟨none, { system.heap with pages := rest }, ⟨2 * chunks.card + 3, fun turns longer => ?_⟩, ⟨chunks, heapPages,
      sound.unchanged (sound.owns.of_units (fun _ _ => rfl) rfl rfl) (fun _ _ => rfl) rfl
        (sound.paged.refused lawful answer)⟩, ?_, by simp⟩
    · rw [kmalloc, if_neg above, slobAlloc_more ran longer]
      rfl
    · simp [Refused, full, answer]
  · obtain ⟨result, after, returns, sound', refused, gave⟩ :=
      kmalloc_headed sound lawful asked above ran taken (same ▸ (sound.paged.heapPage lawful answer).2)
    refine ⟨result, after, returns, sound', refused.trans ?_, fun addr given => ⟨_, gave addr given⟩⟩
    simp [Refused, full, answer, same]

/-! ## `kfree` -/

/-- From some number of turns on `kfree` leaves this heap. -/
def Frees (allocator : PageAllocator π) (heap : Heap π) (block : Nat) (after : Heap π) : Prop :=
  ∃ bound, ∀ turns, bound ≤ turns → kfree allocator turns heap block = .ok after

/-- Without one of the blocks the runs go on. -/
theorem Sound.released {system : System π} {chunks chunks' : Finset Nat} {block : Block} {after : Heap π}
    (sound : Sound held arena system chunks heapPages)
    (owns : Owns arena after chunks' (pieces ⟨after, system.live.erase block⟩) heapPages)
    (frame : ∀ p ∈ pieces ⟨after, system.live.erase block⟩, after.units p.start = system.heap.units p.start)
    (paged : Paged held arena after.pages heapPages after.bigblocks)
    (aligned : ∀ big ∈ after.bigblocks, big ∈ system.heap.bigblocks)
    (big : ∀ other ∈ system.live.erase block, ¬other.isSmall → ∃ big ∈ after.bigblocks, big.pages = other.addr ∧
      big.order = orderFor other.size) :
    Sound held arena ⟨after, system.live.erase block⟩ chunks' heapPages := by
  refine ⟨owns, paged, fun big inBigs => sound.aligned big (aligned big inBigs),
    fun other member => sound.asked other (List.mem_of_mem_erase member), fun other member isSmall => ?_, big,
    sound.distinct.sublist (List.erase_sublist.map _)⟩
  obtain ⟨above, units⟩ := sound.small other (List.mem_of_mem_erase member) isSmall
  exact ⟨above, (frame _ (smallPiece_mem member isSmall)).trans units⟩

/-- The big block that `kfree` finds at an address. -/
def bigAt (heap : Heap π) (block : Nat) : Option BigBlock :=
  if block % pageSize = 0 then heap.bigblocks.find? (·.pages = block) else none

theorem Sound.bigAt_small {system : System π} {chunks : Finset Nat} {block : Block}
    (sound : Sound held arena system chunks heapPages) (member : block ∈ system.live) (isSmall : block.isSmall) :
    bigAt system.heap block.addr = none := by
  have here := smallPiece_has (sound.asked block member) (sound.small block member isSmall).1
  unfold bigAt
  split_ifs
  · refine List.find?_eq_none.mpr fun big inBigs same => ?_
    have off := sound.offBig (smallPiece_mem member isSmall) here inBigs
    have positive := pagesAt_positive big.pages big.order
    simp only [decide_eq_true_eq] at same
    exact off ⟨same.le, show block.addr < big.pages + (pagesAt big.pages (2 ^ big.order)).size by omega⟩
  · rfl

/-- There is one big block with the pages of a block that is not small. -/
theorem Sound.bigAt_big {system : System π} {chunks : Finset Nat} {block : Block}
    (sound : Sound held arena system chunks heapPages) (member : block ∈ system.live) (isBig : ¬block.isSmall) :
    ∃ big first last, bigAt system.heap block.addr = some big ∧ big.pages = block.addr ∧
      big.order = orderFor block.size ∧ system.heap.bigblocks = first ++ big :: last ∧
      system.heap.bigblocks.eraseP (·.pages = block.addr) = first ++ last := by
  obtain ⟨big, inBigs, samePages, order⟩ := sound.big block member isBig
  obtain ⟨found, first, last, before, same, split, erased⟩ :=
    List.exists_of_eraseP (p := fun other : BigBlock => decide (other.pages = block.addr)) inBigs (by simpa using samePages)
  simp only [decide_eq_true_eq] at before same
  have apart := sound.paged.bigs_apart
  rw [split, List.pairwise_append] at apart
  -- a later block with these pages would share them
  have isFound : big = found := by
    rw [split] at inBigs
    rcases List.mem_append.mp inBigs with early | late
    · exact absurd samePages (before big early)
    · rcases List.mem_cons.mp late with here | late
      · exact here
      · have far := (List.pairwise_cons.mp apart.2.1).1 big late
        have one := pagesAt_positive found.pages found.order
        have two := pagesAt_positive big.pages big.order
        simp only [Apart, pagesAt, Extent.stop] at far one two
        omega
  subst isFound
  refine ⟨big, first, last, ?_, samePages, order, split, erased⟩
  rw [bigAt, if_pos (samePages ▸ sound.aligned big inBigs), split, List.find?_append]
  have none : first.find? (fun big : BigBlock => decide (big.pages = block.addr)) = none :=
    List.find?_eq_none.mpr fun other early => by simpa using before other early
  rw [none]
  simp [samePages]

theorem kfree_small (allocator : PageAllocator π) {system : System π} {chunks : Finset Nat} {block : Block}
    (sound : Sound held arena system chunks heapPages) (member : block ∈ system.live) (isSmall : block.isSmall) :
    ∃ after, Frees allocator system.heap block.addr after ∧ after.pages = system.heap.pages ∧
      ∃ chunks', Sound held arena ⟨after, system.live.erase block⟩ chunks' heapPages := by
  obtain ⟨above, units⟩ := sound.small block member isSmall
  have frees : ∀ turns, kfree allocator turns system.heap block.addr =
      slobFree turns system.heap (block.addr - slobUnit) 0 := by
    intro turns
    have notBig := sound.bigAt_small member isSmall
    unfold bigAt at notBig
    rw [kfree, if_neg (by omega)]
    simp only [notBig]
  have perm : (pieces system).Perm (smallPiece block :: pieces ⟨system.heap, system.live.erase block⟩) := by
    have split := ((List.perm_cons_erase member).filter Block.isSmall).map smallPiece
    rw [List.filter_cons, if_pos isSmall, List.map_cons] at split
    exact split.append_right _
  have own : pieceAt (readied system.heap (block.addr - slobUnit) 0) (block.addr - slobUnit) = smallPiece block := by
    simp [pieceAt, readied, smallPiece, units]
  obtain ⟨after, chunks', freed, owns, frame, -, -, bigs, kept⟩ :=
    @slobFree_returns _ system.heap chunks (block.addr - slobUnit) arena 0 chunks.card _ heapPages
      (own ▸ sound.owns.perm perm) le_rfl
  have list : pieces ⟨after, system.live.erase block⟩ = pieces ⟨system.heap, system.live.erase block⟩ := by
    simp only [pieces, bigs]
  refine ⟨after, ⟨chunks.card, fun turns longer => (frees turns).trans (slobFree_more freed longer)⟩, kept, chunks',
    sound.released (list ▸ owns) (list ▸ frame) (by rw [kept, bigs]; exact sound.paged) (fun big inBigs => bigs ▸ inBigs)
      fun other inLive isBig => ?_⟩
  rw [bigs]
  exact sound.big other (List.mem_of_mem_erase inLive) isBig

theorem kfree_big {system : System π} {chunks : Finset Nat} {block : Block}
    (sound : Sound held arena system chunks heapPages) (lawful : Lawful allocator held arena)
    (member : block ∈ system.live) (isBig : ¬block.isSmall) :
    ∃ after, Frees allocator system.heap block.addr after ∧
      after.pages = allocator.free system.heap.pages block.addr (2 ^ orderFor block.size) ∧
      (held system.heap.pages).Perm (pagesAt block.addr (2 ^ orderFor block.size) :: held after.pages) ∧
      ∃ chunks', Sound held arena ⟨after, system.live.erase block⟩ chunks' heapPages := by
  obtain ⟨big, first, last, finds, samePages, order, split, erased⟩ := sound.bigAt_big member isBig
  have inBigs : big ∈ system.heap.bigblocks := by simp [split]
  have notNull : block.addr ≠ 0 := by
    have high := sound.paged.high _ (List.mem_append_right _
      (List.mem_map_of_mem (f := fun big : BigBlock => pagesAt big.pages (2 ^ big.order)) inBigs))
    simp only [pagesAt] at high
    omega
  obtain ⟨emptied, emptiedEq⟩ : ∃ emptied : Heap π, emptied = { system.heap with
    pages := allocator.free system.heap.pages block.addr (2 ^ big.order)
    bigblocks := system.heap.bigblocks.eraseP (·.pages = block.addr) } := ⟨_, rfl⟩
  have emptiedBigs : emptied.bigblocks = first ++ last := by rw [emptiedEq, ← erased]
  have frees : ∀ turns, kfree allocator turns system.heap block.addr =
      slobFree turns emptied big.header sizeofBigblock := by
    intro turns
    unfold bigAt at finds
    rw [kfree, if_neg notNull, emptiedEq]
    simp only [finds]
  have filtered : (system.live.filter Block.isSmall).Perm ((system.live.erase block).filter Block.isSmall) := by
    have kept := (List.perm_cons_erase member).filter Block.isSmall
    rwa [List.filter_cons, if_neg isBig] at kept
  have perm : (pieces system).Perm (headerPiece big :: pieces ⟨emptied, system.live.erase block⟩) := by
    simp only [pieces, emptiedBigs, split, List.map_append, List.map_cons]
    rw [← List.append_assoc, ← List.append_assoc]
    refine List.perm_middle.trans (List.Perm.cons _ ?_)
    exact ((filtered.map smallPiece).append_right _).append_right _
  obtain ⟨grown, sameUnits, -⟩ := Owns.readied (sound.owns.perm perm : Owns arena system.heap chunks
    (⟨big.header, slobUnit * slobUnits sizeofBigblock⟩ :: _) heapPages) (by decide)
    (by rw [emptiedEq] : emptied.units = _) (by rw [emptiedEq]) (by rw [emptiedEq])
  obtain ⟨after, chunks', freed, owns, frame, -, -, bigs, kept⟩ := slobFree_returns grown le_rfl
  have list : pieces ⟨after, system.live.erase block⟩ = pieces ⟨emptied, system.live.erase block⟩ := by
    simp only [pieces, bigs]
  have paged : Paged held arena after.pages heapPages after.bigblocks := by
    have sofar := sound.paged
    rw [split] at sofar
    rw [kept, bigs, emptiedBigs, emptiedEq, ← samePages]
    exact (sofar.freeBig lawful).1
  refine ⟨after, ⟨chunks.card, fun turns longer => (frees turns).trans (slobFree_more freed longer)⟩, ?_, ?_, chunks',
    sound.released (list ▸ owns) ?_ paged (fun other inside => ?_) fun other inLive isBig' => ?_⟩
  · rw [kept, emptiedEq, ← order]
  · have sofar := sound.paged
    rw [split] at sofar
    rw [kept, emptiedEq, ← order, ← samePages]
    exact (sofar.freeBig lawful).2
  · rw [list]
    exact fun p inside => (frame p inside).trans (sameUnits p inside)
  · rw [bigs, emptiedBigs] at inside
    rw [split]
    rcases List.mem_append.mp inside with early | late
    · exact List.mem_append_left _ early
    · exact List.mem_append_right _ (List.mem_cons_of_mem _ late)
  · obtain ⟨own, inBigs', samePages', order'⟩ := sound.big other (List.mem_of_mem_erase inLive) isBig'
    have distinct : other.addr ≠ block.addr := by
      have apart := (List.perm_cons_erase member).map Block.addr |>.nodup_iff.mp sound.distinct
      rw [List.map_cons, List.nodup_cons] at apart
      exact fun equal => apart.1 (equal ▸ List.mem_map_of_mem inLive)
    refine ⟨own, ?_, samePages', order'⟩
    rw [bigs, emptiedBigs]
    rw [split] at inBigs'
    rcases List.mem_append.mp inBigs' with early | late
    · exact List.mem_append_left _ early
    · rcases List.mem_cons.mp late with rfl | late
      · exact absurd (samePages'.symm.trans samePages) distinct
      · exact List.mem_append_right _ late

end Ucore.KmallocRuns
