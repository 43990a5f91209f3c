import Ucore.Ensures

/-! Kernel memory as its users see it. An object is named by the order of its
allocation; which requests are met comes with the state. What is written to an
object has to stay inside it. -/
namespace Ucore.KernelHeap
open Call

structure Heap where
  /-- Whether the next requests are met. -/
  kmallocs : Nat → Bool
  allocated : Nat
  /-- The sizes of the objects that have not been freed. -/
  sizes : Nat → Option Nat

/-- `kmalloc`; `none` is a null pointer. -/
def kmalloc (size : Nat) : Call Heap (Option Nat) := do
  let heap ← gets fun heap => heap
  modify fun heap => { heap with kmallocs := fun n => heap.kmallocs (n + 1) }
  if heap.kmallocs 0 then
    modify fun heap => { heap with
      allocated := heap.allocated + 1
      sizes := Function.update heap.sizes heap.allocated (some size) }
    return some heap.allocated
  else return none

/-- `kfree` of an object that is not there is a fault. -/
def kfree (object : Nat) : Call Heap Unit := do
  let heap ← gets fun heap => heap
  assert (heap.sizes object).isSome
  modify fun heap => { heap with sizes := Function.update heap.sizes object none }

/-- The bytes of an object up to `finish` are there to be written. -/
def inside (object finish : Nat) : Call Heap Unit := do
  let heap ← gets fun heap => heap
  assert ((heap.sizes object).any fun size => finish ≤ size)

/-! ## What the calls do -/

variable {heap : Heap} {bad : Int → Heap → Prop} {halt : Prop} {size object finish : Nat}

/-- The heap behind a request that was not met. -/
def Heap.refused (heap : Heap) : Heap := { heap with kmallocs := fun n => heap.kmallocs (n + 1) }

/-- The heap behind a request that was met. -/
def Heap.given (heap : Heap) (size : Nat) : Heap where
  kmallocs n := heap.kmallocs (n + 1)
  allocated := heap.allocated + 1
  sizes := Function.update heap.sizes heap.allocated (some size)

def Heap.freed (heap : Heap) (object : Nat) : Heap :=
  { heap with sizes := Function.update heap.sizes object none }

theorem kmalloc_settles {post : Option Nat → Heap → Prop}
    (refused : heap.kmallocs 0 = false → post none heap.refused)
    (given : heap.kmallocs 0 = true → post (some heap.allocated) (heap.given size)) :
    Settles (kmalloc size) post bad halt heap := by
  refine .bind (.gets (.bind (.modify ?_)))
  cases met : heap.kmallocs 0 with
  | false => exact .pure (refused met)
  | true => exact .bind (.modify (.pure (given met)))

theorem kfree_settles {post : Unit → Heap → Prop} (live : (heap.sizes object).isSome = true)
    (freed : post () (heap.freed object)) : Settles (kfree object) post bad halt heap := by
  refine .bind (.gets (.bind (.assert (fun _ => .modify freed) fun dead => ?_)))
  rw [live] at dead
  cases dead

theorem inside_settles {post : Unit → Heap → Prop} (live : heap.sizes object = some size) (within : finish ≤ size)
    (held : post () heap) : Settles (inside object finish) post bad halt heap := by
  refine .bind (.gets (.assert (fun _ => held) fun outside => ?_))
  simp [live, within] at outside

@[simp] theorem Heap.refused_sizes : heap.refused.sizes = heap.sizes := rfl

@[simp] theorem Heap.refused_kmallocs (n : Nat) : heap.refused.kmallocs n = heap.kmallocs (n + 1) := rfl

@[simp] theorem Heap.given_kmallocs (n : Nat) : (heap.given size).kmallocs n = heap.kmallocs (n + 1) := rfl

@[simp] theorem Heap.given_allocated : (heap.given size).allocated = heap.allocated + 1 := rfl

@[simp] theorem Heap.given_sizes : (heap.given size).sizes = Function.update heap.sizes heap.allocated (some size) := rfl

@[simp] theorem Heap.freed_sizes : (heap.freed object).sizes = Function.update heap.sizes object none := rfl

/-! ## What has been allocated since -/

/-- Since the sizes were `base`, these objects have come and nothing has gone. -/
structure Owns (base sizes : Nat → Option Nat) (objects : List Nat) : Prop where
  live : ∀ object ∈ objects, (sizes object).isSome = true
  others : ∀ object, object ∉ objects → sizes object = base object
  fresh : ∀ object ∈ objects, base object = none
  distinct : objects.Nodup

variable {base sizes : Nat → Option Nat} {objects : List Nat}

theorem Owns.none (sizes : Nat → Option Nat) : Owns sizes sizes [] := ⟨nofun, fun _ _ => rfl, nofun, List.nodup_nil⟩

theorem Owns.released (owns : Owns base sizes []) : sizes = base := funext fun object => owns.others object List.not_mem_nil

theorem Owns.given (owns : Owns base heap.sizes objects) (unused : heap.sizes heap.allocated = Option.none) (size : Nat) :
    Owns base (heap.given size).sizes (heap.allocated :: objects) := by
  have absent : heap.allocated ∉ objects := by
    intro member
    have live := owns.live _ member
    rw [unused] at live
    cases live
  refine ⟨fun object member => ?_, fun object other => ?_, fun object member => ?_, List.nodup_cons.mpr ⟨absent, owns.distinct⟩⟩
  · by_cases same : object = heap.allocated
    · simp [same]
    · rw [Heap.given_sizes, Function.update_of_ne same]
      exact owns.live object ((List.mem_cons.mp member).resolve_left same)
  · rw [List.mem_cons, not_or] at other
    rw [Heap.given_sizes, Function.update_of_ne other.1]
    exact owns.others object other.2
  · rcases List.mem_cons.mp member with rfl | older
    · rw [← owns.others _ absent, unused]
    · exact owns.fresh object older

theorem Owns.freed (owns : Owns base heap.sizes (object :: objects)) : Owns base (heap.freed object).sizes objects := by
  obtain ⟨absent, distinct⟩ := List.nodup_cons.mp owns.distinct
  refine ⟨fun other member => ?_, fun other notMember => ?_, fun other member => owns.fresh other (List.mem_cons_of_mem _ member), distinct⟩
  · have apart : other ≠ object := by
      rintro rfl
      exact absent member
    rw [Heap.freed_sizes, Function.update_of_ne apart]
    exact owns.live other (List.mem_cons_of_mem _ member)
  · by_cases same : other = object
    · rw [same, Heap.freed_sizes, Function.update_self, owns.fresh object List.mem_cons_self]
    · rw [Heap.freed_sizes, Function.update_of_ne same]
      exact owns.others other (by simp [same, notMember])

/-- No name that is still to be given out is in use. -/
def Unused (heap : Heap) : Prop := ∀ object, heap.allocated ≤ object → heap.sizes object = none

theorem Unused.refused (unused : Unused heap) : Unused heap.refused := unused

theorem Unused.given (unused : Unused heap) (size : Nat) : Unused (heap.given size) := by
  intro object later
  have above : heap.allocated + 1 ≤ object := later
  rw [Heap.given_sizes, Function.update_of_ne (by omega)]
  exact unused object (by omega)

end Ucore.KernelHeap
