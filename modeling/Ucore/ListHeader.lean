import Ucore.Ring

/-! The operations of `libs/list.h` on the links of any kind of node, and what
each of them does to a ring. `Links` holds the two fields of every
`struct list_entry`; an operation writes them in the order the source does. -/
namespace Ucore.ListHeader
open Ucore.Ring

variable {α : Type} [DecidableEq α]

/-- `__list_add`: `prev->next = next->prev = elm; elm->next = next; elm->prev = prev`. -/
def rawListAdd (links : Links α) (elm prev next : α) : Links α :=
  let links := { links with prev := Function.update links.prev next elm }
  let links := { links with next := Function.update links.next prev elm }
  let links := { links with next := Function.update links.next elm next }
  { links with prev := Function.update links.prev elm prev }

/-- `__list_del`: `prev->next = next; next->prev = prev`. -/
def rawListDel (links : Links α) (prev next : α) : Links α :=
  let links := { links with next := Function.update links.next prev next }
  { links with prev := Function.update links.prev next prev }

def listInit (links : Links α) (elm : α) : Links α where
  prev := Function.update links.prev elm elm
  next := Function.update links.next elm elm

def listNext (links : Links α) (listelm : α) : α := links.next listelm

def listPrev (links : Links α) (listelm : α) : α := links.prev listelm

def listAddAfter (links : Links α) (listelm elm : α) : Links α :=
  rawListAdd links elm listelm (links.next listelm)

def listAddBefore (links : Links α) (listelm elm : α) : Links α :=
  rawListAdd links elm (links.prev listelm) listelm

def listAdd (links : Links α) (listelm elm : α) : Links α := listAddAfter links listelm elm

def listDel (links : Links α) (listelm : α) : Links α :=
  rawListDel links (links.prev listelm) (links.next listelm)

def listDelInit (links : Links α) (listelm : α) : Links α := listInit (listDel links listelm) listelm

def listEmpty (links : Links α) (list : α) : Bool := links.next list = list

theorem rawListAdd_eq_splice (links : Links α) (elm prev next : α) :
    rawListAdd links elm prev next = links.splice elm prev next := rfl

theorem rawListDel_eq_join (links : Links α) (prev next : α) :
    rawListDel links prev next = links.join prev next := rfl

variable {links : Links α} {head node elm : α} {before after nodes : List α}

/-- A freshly initialised head is the ring of no nodes. -/
theorem listInit_ring : IsRing (listInit links head) head [] where
  distinct := by simp
  linked := by simp [Segment, listInit]

theorem listEmpty_iff (ring : IsRing links head nodes) : listEmpty links head ↔ nodes = [] := by
  simp [listEmpty, ring.next_head_eq]

/-- Adding after the last of `before`, the head included, puts the element there. -/
theorem listAdd_between (ring : IsRing links head (before ++ after))
    (fresh : elm ∉ head :: (before ++ after)) :
    IsRing (listAdd links ((head :: before).getLast (by simp)) elm) head
      (before ++ elm :: after) := by
  have spliced := ring.splice fresh
  rwa [← ring.next_between] at spliced

/-- Adding before a node of the ring. -/
theorem listAddBefore_node (ring : IsRing links head (before ++ node :: after))
    (fresh : elm ∉ head :: (before ++ node :: after)) :
    IsRing (listAddBefore links node elm) head (before ++ elm :: node :: after) := by
  have spliced := ring.splice fresh
  rwa [← ring.prev_node] at spliced

/-- Deleting a node leaves the others in order. -/
theorem listDel_node (ring : IsRing links head (before ++ node :: after)) :
    IsRing (listDel links node) head (before ++ after) := ring.join

/-- A ring is left alone by what happens on another one. -/
theorem listAdd_other {head' : α} {nodes' : List α} (ring : IsRing links head nodes) (other : IsRing links head' nodes')
    (apart : ∀ x ∈ head :: nodes, x ∉ head' :: nodes') (fresh : elm ∉ head' :: nodes') : IsRing (listAdd links head elm) head' nodes' := by
  have next : links.next head ∈ head :: nodes := by
    rw [ring.next_head]
    cases nodes <;> simp
  refine other.congr fun x inside => ?_
  have notElm : x ≠ elm := fun same => fresh (same ▸ inside)
  have notHead : x ≠ head := fun same => apart head List.mem_cons_self (same ▸ inside)
  have notNext : x ≠ links.next head := fun same => apart _ next (same ▸ inside)
  simp [listAdd, listAddAfter, rawListAdd, notElm, notHead, notNext]

theorem listDel_other {head' : α} {nodes' : List α} (ring : IsRing links head nodes) (member : node ∈ nodes) (other : IsRing links head' nodes')
    (apart : ∀ x ∈ head :: nodes, x ∉ head' :: nodes') : IsRing (listDel links node) head' nodes' := by
  obtain ⟨before, after, rfl⟩ := List.append_of_mem member
  have prev : links.prev node ∈ head :: (before ++ node :: after) := by
    have early : links.prev node ∈ head :: before := ring.prev_node ▸ List.getLast_mem _
    rcases List.mem_cons.mp early with same | inBefore
    · exact List.mem_cons.mpr (.inl same)
    · exact List.mem_cons_of_mem _ (List.mem_append_left _ inBefore)
  have next : links.next node ∈ head :: (before ++ node :: after) := by
    have late : links.next node ∈ after ++ [head] := ring.next_node ▸ List.head_mem _
    rcases List.mem_append.mp late with inAfter | atHead
    · exact List.mem_cons_of_mem _ (List.mem_append_right _ (List.mem_cons_of_mem _ inAfter))
    · exact List.mem_cons.mpr (.inl (List.mem_singleton.mp atHead))
  refine other.congr fun x inside => ?_
  have notPrev : x ≠ links.prev node := fun same => apart _ prev (same ▸ inside)
  have notNext : x ≠ links.next node := fun same => apart _ next (same ▸ inside)
  simp [listDel, rawListDel, notPrev, notNext]

end Ucore.ListHeader
