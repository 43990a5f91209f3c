import Ucore.DefaultPmmProofs
import Ucore.PageManager

/-! The first-fit manager of `kern/mm/default_pmm.c` as the one that the page tables
ask. A frame is a page behind the first of the memory. The manager keeps no record of
the pages it has handed out; they are here to say what it has left. -/
namespace Ucore.FirstFitPages
open DefaultPmm ListHeader Paging Ucore.Call

/-- The range of pages that `page_init` gave to the manager, and its heap. -/
structure Region where
  start : Nat
  total : Nat
  heap : Heap

/-- `alloc_pages(1)`. -/
def allocPages : Ucore.Call Region (Option Nat) := do
  let area ← gets fun region => region.heap.area
  match defaultAllocPages area 1 with
  | none => stop
  | some (none, area) =>
    modify fun region => { region with heap := ⟨area, region.heap.held⟩ }
    return none
  | some (some page, area) =>
    modify fun region => { region with heap := ⟨area, region.heap.held ∪ Finset.Ico page (page + 1)⟩ }
    return some (nbase + page)

/-- `free_pages(page, 1)`; there is no `struct Page` for a frame below the memory. -/
def freePages (frame : Nat) : Ucore.Call Region Unit := do
  assert (nbase ≤ frame)
  let page := frame - nbase
  let area ← gets fun region => region.heap.area
  match defaultFreePages area page 1 with
  | none => stop
  | some area => modify fun region => { region with heap := ⟨area, region.heap.held \ Finset.Ico page (page + 1)⟩ }

/-- Whether a page that is given back lies above the last block of a free list that is not empty. -/
def Region.above (region : Region) (frame : Nat) : Bool :=
  match listPrev region.heap.area.links .freeList with
  | .freeList => false
  | .pageLink last => last ≤ frame - nbase

/-- The manager, which goes on where a page is given back above its last block. -/
structure FreeArea extends Region where
  /-- Whether that has happened. -/
  aboveLast : Bool

instance : PmmManager FreeArea where
  allocPages := within FreeArea.toRegion (fun region area => { area with toRegion := region }) allocPages
  freePages frame := do
    modify fun area => { area with aboveLast := area.aboveLast || area.toRegion.above frame }
    within FreeArea.toRegion (fun region area => { area with toRegion := region }) (freePages frame)

/-- `page_init`: every page is reserved, then those from `start` on are given to the manager. -/
def pageInit (start total : Nat) : Option FreeArea :=
  let area : Area := ⟨npage - nbase, fun _ => ⟨0, true, false, 0⟩, ⟨id, id⟩, 0⟩
  (defaultInitMemmap (defaultInit area) start total).map fun area => ⟨⟨start, total, ⟨area, ∅⟩⟩, false⟩

/-- The manager as it would be if it stopped there. -/
structure Guarded extends Region

instance : PmmManager Guarded where
  allocPages := within Guarded.toRegion (fun region _ => ⟨region⟩) allocPages
  freePages frame := do
    let above ← gets fun guarded => guarded.toRegion.above frame
    assert (!above)
    within Guarded.toRegion (fun region _ => ⟨region⟩) (freePages frame)

/-! ## What is left -/

/-- The pages of the range that are not handed out. -/
def Region.free (region : Region) (frame : Nat) : Bool :=
  nbase + region.start ≤ frame && frame < nbase + region.start + region.total && frame - nbase ∉ region.heap.held

/-- The free list is in order, and every page outside the range is reserved, as `page_init` leaves them. -/
structure Region.Ordered (region : Region) : Prop where
  listed : ∃ extents, FirstFit region.start region.total region.heap extents
  inside : nbase + region.start + region.total ≤ npage
  reserved : ∀ page, nbase + page < npage → ¬ (region.start ≤ page ∧ page < region.start + region.total) →
    (region.heap.area.pages page).pgReserved = true

instance : ManagedPages FreeArea where
  free area := area.toRegion.free
  Ordered area := area.toRegion.Ordered

instance : ManagedPages Guarded where
  free guarded := guarded.toRegion.free
  Ordered guarded := guarded.toRegion.Ordered

end Ucore.FirstFitPages
