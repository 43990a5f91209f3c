import Ucore.SortedRing

/-! The SLOB heap of `kern/mm/kmalloc.c`. Addresses are bytes, and a `slob_t` is at
every address; of the two fields that stand where a block's own bytes or the fields
of a `bigblock_t` may stand only those are read that `slob_free` or `slob_alloc`
wrote. Every caller aligns to 0. What the page allocator answers comes with it. -/
namespace Ucore.Kmalloc

def pageSize : Nat := 4096
def slobUnit : Nat := 16
def slobUnits (size : Nat) : Nat := (size + slobUnit - 1) / slobUnit

/-- `sizeof(bigblock_t)`. -/
def sizeofBigblock : Nat := 24

structure BigBlock where
  header : Nat
  order : Nat
  pages : Nat
  deriving DecidableEq

/-- `alloc_pages` and `free_pages` with `page2kva` and `kva2page`, over the state of the page allocator. -/
structure PageAllocator (π : Type) where
  alloc : π → Nat → Option Nat × π
  free : π → Nat → Nat → π

structure Heap (π : Type) where
  units : Nat → Nat
  next : Nat → Nat
  slobfree : Nat
  bigblocks : List BigBlock
  pages : π

/-- Why a call has no outcome: a failed assertion, or a loop that is not over after so many turns. -/
inductive Stopped
  | assertion
  | unfinished
  deriving DecidableEq

variable {π : Type} (allocator : PageAllocator π)

/-- `b > cur && b < cur->next`, or the wrap of the list where `b` is beyond its ends. -/
def fitsBehind (next : Nat → Nat) (b cur : Nat) : Bool :=
  (cur < b && b < next cur) || (next cur ≤ cur && (cur < b || b < next cur))

/-- The reinsertion point. -/
def findPlace (next : Nat → Nat) (b : Nat) : Nat → Nat → Except Stopped Nat
  | 0, _ => .error .unfinished
  | turns + 1, cur => if fitsBehind next b cur then .ok cur else findPlace next b turns (next cur)

/-- Puts `b` behind `cur`, or joins it with what follows it there. -/
def linkBehind (heap : Heap π) (b cur : Nat) : Heap π :=
  let after := heap.next cur
  if b + slobUnit * heap.units b = after then
    { heap with
      units := Function.update heap.units b (heap.units b + heap.units after)
      next := Function.update heap.next b (heap.next after) }
  else { heap with next := Function.update heap.next b after }

/-- Links `cur` to `b`, or joins them. -/
def linkBefore (heap : Heap π) (b cur : Nat) : Heap π :=
  if cur + slobUnit * heap.units cur = b then
    { heap with
      units := Function.update heap.units cur (heap.units cur + heap.units b)
      next := Function.update heap.next cur (heap.next b) }
  else { heap with next := Function.update heap.next cur b }

def slobFree (turns : Nat) (heap : Heap π) (b size : Nat) : Except Stopped (Heap π) :=
  if b = 0 then .ok heap
  else do
    let heap := if size ≠ 0 then { heap with units := Function.update heap.units b (slobUnits size) } else heap
    let cur ← findPlace heap.next b turns heap.slobfree
    .ok { linkBefore (linkBehind heap b cur) b cur with slobfree := cur }

/-- Takes `units` from `cur`, which follows `prev`. -/
def take (heap : Heap π) (units prev cur : Nat) : Heap π :=
  if heap.units cur = units then
    { heap with next := Function.update heap.next prev (heap.next cur), slobfree := prev }
  else
    let rest := cur + slobUnit * units
    let next := Function.update heap.next prev rest
    { heap with
      units := Function.update (Function.update heap.units rest (heap.units cur - units)) cur units
      next := Function.update next rest (next cur)
      slobfree := prev }

/-- The loop of `slob_alloc`; its result is `none` for `NULL`. -/
def slobSearch (units : Nat) : Nat → Heap π → Nat → Nat → Except Stopped (Option Nat × Heap π)
  | 0, _, _, _ => .error .unfinished
  | turns + 1, heap, prev, cur =>
    if units ≤ heap.units cur then .ok (some cur, take heap units prev cur)
    else if cur = heap.slobfree then
      match allocator.alloc heap.pages 1 with
      | (none, pages) => .ok (none, { heap with pages })
      | (some page, pages) => do
        let heap ← slobFree turns { heap with pages } page pageSize
        slobSearch units turns heap heap.slobfree (heap.next heap.slobfree)
    else slobSearch units turns heap cur (heap.next cur)

def slobAlloc (turns : Nat) (heap : Heap π) (size : Nat) : Except Stopped (Option Nat × Heap π) :=
  if size + slobUnit < pageSize then
    slobSearch allocator (slobUnits size) turns heap heap.slobfree (heap.next heap.slobfree)
  else .error .assertion

def findOrder (size : Nat) : Nat := if 4096 < size then findOrder (size / 2) + 1 else 0

/-- The `int` that `find_order` takes; one below 0 has the order of 0. -/
def toInt (size : Nat) : Nat := (BitVec.ofNat 32 size).toInt.toNat

def orderFor (size : Nat) : Nat := findOrder (toInt size)

def kmalloc (turns : Nat) (heap : Heap π) (size : Nat) : Except Stopped (Option Nat × Heap π) :=
  if size < pageSize - slobUnit then do
    let (m, heap) ← slobAlloc allocator turns heap (size + slobUnit)
    .ok (m.map (· + slobUnit), heap)
  else do
    let (bb, heap) ← slobAlloc allocator turns heap sizeofBigblock
    match bb with
    | none => .ok (none, heap)
    | some header =>
      match allocator.alloc heap.pages (2 ^ orderFor size) with
      | (some pages, rest) =>
        .ok (some pages, { heap with pages := rest, bigblocks := ⟨header, orderFor size, pages⟩ :: heap.bigblocks })
      | (none, rest) => do
        let heap ← slobFree turns { heap with pages := rest } header sizeofBigblock
        .ok (none, heap)

def kfree (turns : Nat) (heap : Heap π) (block : Nat) : Except Stopped (Heap π) :=
  if block = 0 then .ok heap
  else
    match if block % pageSize = 0 then heap.bigblocks.find? (·.pages = block) else none with
    | some big =>
      slobFree turns { heap with
        pages := allocator.free heap.pages block (2 ^ big.order)
        bigblocks := heap.bigblocks.eraseP (·.pages = block) } big.header sizeofBigblock
    | none => slobFree turns heap (block - slobUnit) 0

/-- The heap before the first call, with nothing but the arena. -/
def kmallocInit (arena : Nat) (pages : π) : Heap π where
  units := Function.update (fun _ => 0) arena 1
  next := fun _ => arena
  slobfree := arena
  bigblocks := []
  pages := pages

end Ucore.Kmalloc
