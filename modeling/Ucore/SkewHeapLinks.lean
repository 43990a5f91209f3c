import Ucore.SkewHeap

/-! `libs/skew_heap.h`: the skew heap in memory, where every entry points to its
parent and its children. A null pointer is `none`. The recursion of the merge is
given the number of calls that it may nest; one that needs more has no result. -/
namespace Ucore.SkewHeapLinks

variable {α : Type} [DecidableEq α]

/-- `struct skew_heap_entry`. -/
structure Entry (α : Type) where
  parent : Option α
  left : Option α
  right : Option α

abbrev Memory (α : Type) := α → Entry α

def skewHeapInit (mem : Memory α) (a : α) : Memory α := Function.update mem a ⟨none, none, none⟩

def setParent (mem : Memory α) (node : Option α) (parent : Option α) : Memory α :=
  match node with
  | none => mem
  | some node => Function.update mem node { mem node with parent := parent }

/-- The end of a merge: the merged children go to the left, the left child to the right. -/
def adopt (mem : Memory α) (a : α) (l r : Option α) : Memory α :=
  setParent (Function.update mem a { mem a with left := l, right := r }) l (some a)

variable (comp : α → α → Int)

def skewHeapMerge : Nat → Memory α → Option α → Option α → Option (Option α × Memory α)
  | 0, _, _, _ => none
  | _ + 1, mem, none, b => some (b, mem)
  | _ + 1, mem, some a, none => some (some a, mem)
  | turns + 1, mem, some a, some b =>
    if comp a b = -1 then do
      let (l, after) ← skewHeapMerge turns mem (mem a).right (some b)
      return (some a, adopt after a l (mem a).left)
    else do
      let (l, after) ← skewHeapMerge turns mem (some a) (mem b).right
      return (some b, adopt after b l (mem b).left)

def skewHeapInsert (turns : Nat) (mem : Memory α) (a : Option α) (b : α) : Option (Option α × Memory α) :=
  skewHeapMerge comp turns (skewHeapInit mem b) a (some b)

/-- Puts `rep` in the place of `b` below `p`. -/
def replaceChild (mem : Memory α) (p b : α) (rep : Option α) : Memory α :=
  if (mem p).left = some b then Function.update mem p { mem p with left := rep }
  else Function.update mem p { mem p with right := rep }

def skewHeapRemove (turns : Nat) (mem : Memory α) (a : Option α) (b : α) : Option (Option α × Memory α) := do
  let p := (mem b).parent
  let (rep, after) ← skewHeapMerge comp turns mem (mem b).left (mem b).right
  let after := setParent after rep p
  match p with
  | some p => return (a, replaceChild after p b rep)
  | none => return (rep, after)

/-! ## The heaps of a program -/

/-- A memory of entries, the pointers to the heaps in it, and the comparison by the
keys that the entries have now. -/
structure Program (η α : Type) where
  mem : Memory α
  root : η → Option α
  comp : α → α → Int

inductive Event (η α : Type) where
  | insert (heap : η) (entry : α)
  /-- The second heap's pointer is not used any more. -/
  | merge (heap other : η)
  | remove (heap : η) (entry : α)
  /-- The keys change. -/
  | rekey (comp : α → α → Int)
  /-- The key of the root of a heap changes, and the root is removed. -/
  | removeRaised (heap : η) (comp : α → α → Int)

variable {η : Type} [DecidableEq η]

def Program.put (state : Program η α) (heap : η) (result : Option α × Memory α) : Program η α :=
  { state with mem := result.2, root := Function.update state.root heap result.1 }

/-- `none` where the recursion is not given enough calls, or a null root is removed. -/
def step (turns : Nat) (state : Program η α) : Event η α → Option (Program η α)
  | .insert heap entry => (skewHeapInsert state.comp turns state.mem (state.root heap) entry).map (state.put heap)
  | .merge heap other =>
    (skewHeapMerge state.comp turns state.mem (state.root heap) (state.root other)).map fun result =>
      { state.put heap result with root := Function.update (Function.update state.root heap result.1) other none }
  | .remove heap entry => (skewHeapRemove state.comp turns state.mem (state.root heap) entry).map (state.put heap)
  | .rekey comp => some { state with comp }
  | .removeRaised heap comp => do
    let root ← state.root heap
    let result ← skewHeapRemove comp turns state.mem (state.root heap) root
    return { state.put heap result with comp }

end Ucore.SkewHeapLinks
