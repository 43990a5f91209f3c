import Mathlib

/-! Skew heaps: binary trees that merge along their right spines and swap the
children they go through. The comparison is a parameter; where it agrees with an
order of keys on the elements at hand, the root has the least key. -/
namespace Ucore.SkewHeap

inductive Heap (α : Type*) where
  | leaf
  | node (entry : α) (left right : Heap α)
  deriving DecidableEq

namespace Heap

variable {α β : Type*}

def entries : Heap α → Multiset α
  | leaf => 0
  | node entry left right => {entry} + (left.entries + right.entries)

def root : Heap α → Option α
  | leaf => none
  | node entry _ _ => some entry

variable (less : α → α → Bool)

/-- Merges a node into a heap, given how its right child is merged. -/
def mergeNode (entry : α) (left right : Heap α) (mergeRight : Heap α → Heap α) : Heap α → Heap α
  | leaf => node entry left right
  | node other left' right' =>
    if less entry other then node entry (mergeRight (node other left' right')) left
    else node other (mergeNode entry left right mergeRight right') left'

def merge : Heap α → Heap α → Heap α
  | leaf => fun heap => heap
  | node entry left right => mergeNode less entry left right (merge right)

def insert (heap : Heap α) (entry : α) : Heap α := merge less heap (node entry leaf leaf)

/-- Puts the merged children of the entry in its place. -/
def remove [DecidableEq α] (entry : α) : Heap α → Heap α
  | leaf => leaf
  | node other left right =>
    if other = entry then merge less left right else node other (left.remove entry) (right.remove entry)

variable {less}

@[simp] theorem merge_leaf (heap : Heap α) : merge less leaf heap = heap := rfl

@[simp] theorem merge_node_leaf (entry : α) (left right : Heap α) :
    merge less (node entry left right) leaf = node entry left right := rfl

theorem merge_node (entry other : α) (left right left' right' : Heap α) :
    merge less (node entry left right) (node other left' right') =
      if less entry other then node entry (merge less right (node other left' right')) left
      else node other (merge less (node entry left right) right') left' := rfl

/-- Induction along the two right spines. -/
theorem merge_induction (less : α → α → Bool) {motive : Heap α → Heap α → Heap α → Prop}
    (none_left : ∀ heap, motive leaf heap heap)
    (none_right : ∀ entry left right, motive (node entry left right) leaf (node entry left right))
    (first : ∀ entry left right other left' right', less entry other = true →
      motive right (node other left' right') (merge less right (node other left' right')) →
      motive (node entry left right) (node other left' right')
        (node entry (merge less right (node other left' right')) left))
    (second : ∀ entry left right other left' right', less entry other = false →
      motive (node entry left right) right' (merge less (node entry left right) right') →
      motive (node entry left right) (node other left' right')
        (node other (merge less (node entry left right) right') left'))
    (heap heap' : Heap α) : motive heap heap' (merge less heap heap') := by
  induction heap generalizing heap' with
  | leaf => exact none_left heap'
  | node entry left right _ ih =>
    induction heap' with
    | leaf => exact none_right entry left right
    | node other left' right' _ ih' =>
      rw [merge_node]
      cases smaller : less entry other with
      | true => exact first entry left right other left' right' smaller (ih _)
      | false => exact second entry left right other left' right' smaller ih'

/-! ## What a heap holds -/

theorem merge_entries (heap heap' : Heap α) :
    (merge less heap heap').entries = heap.entries + heap'.entries := by
  induction heap, heap' using merge_induction less with
  | none_left heap => simp [entries]
  | none_right entry left right => simp [entries]
  | first entry left right other left' right' _ ih =>
    simp only [entries] at ih ⊢
    rw [ih]
    abel
  | second entry left right other left' right' _ ih =>
    simp only [entries] at ih ⊢
    rw [ih]
    abel

theorem insert_entries (heap : Heap α) (entry : α) :
    (insert less heap entry).entries = heap.entries + {entry} := by
  simp [insert, merge_entries, entries]

/-- An entry that is in the heap once is removed from it. -/
theorem remove_entries [DecidableEq α] {heap : Heap α} (distinct : heap.entries.Nodup)
    (entry : α) : (heap.remove less entry).entries = heap.entries.erase entry := by
  induction heap with
  | leaf => simp [remove, entries]
  | node other left right ih ih' =>
    obtain ⟨fresh, distinct⟩ := Multiset.nodup_cons.mp distinct
    obtain ⟨distinctLeft, distinctRight, apart⟩ := Multiset.nodup_add.mp distinct
    by_cases here : other = entry
    · subst here
      simp [remove, entries, merge_entries]
    · rw [remove, if_neg here, entries, ih distinctLeft, ih' distinctRight, entries,
        Multiset.singleton_add, Multiset.singleton_add, Multiset.erase_cons_tail _ here]
      by_cases inLeft : entry ∈ left.entries
      · have away : entry ∉ right.entries := Multiset.disjoint_left.mp apart inLeft
        rw [Multiset.erase_of_notMem away, Multiset.erase_add_left_pos _ inLeft]
      · rw [Multiset.erase_of_notMem inLeft, Multiset.erase_add_right_neg _ inLeft]

theorem remove_absent [DecidableEq α] {heap : Heap α} (absent : entry ∉ heap.entries) :
    heap.remove less entry = heap := by
  induction heap with
  | leaf => rfl
  | node other left right ih ih' =>
    simp only [entries, Multiset.mem_add, Multiset.mem_singleton, not_or] at absent
    rw [remove, if_neg fun same => absent.1 same.symm, ih absent.2.1, ih' absent.2.2]

theorem mem_of_root {heap : Heap α} (atRoot : heap.root = some entry) : entry ∈ heap.entries := by
  cases heap with
  | leaf => cases atRoot
  | node other left right =>
    cases atRoot
    simp [entries]

theorem root_none {heap : Heap α} : heap.root = none ↔ heap.entries = 0 := by
  cases heap <;> simp [root, entries]

/-! ## Heap order -/

variable [LinearOrder β] (key : α → β)

/-- No entry below has a smaller key than an entry above it. -/
def Ordered : Heap α → Prop
  | leaf => True
  | node entry left right =>
    (∀ other ∈ left.entries + right.entries, key entry ≤ key other) ∧ Ordered left ∧ Ordered right

variable {key}

theorem Ordered.congr {key' : α → β} {heap : Heap α} (ordered : Ordered key heap)
    (same : ∀ entry ∈ heap.entries, key' entry = key entry) : Ordered key' heap := by
  induction heap with
  | leaf => trivial
  | node entry left right ih ih' =>
    obtain ⟨below, orderedLeft, orderedRight⟩ := ordered
    have inLeft (other : α) (member : other ∈ left.entries) : other ∈ (node entry left right).entries := by
      simp [entries, member]
    have inRight (other : α) (member : other ∈ right.entries) : other ∈ (node entry left right).entries := by
      simp [entries, member]
    refine ⟨fun other member => ?_, ih orderedLeft fun other member => same other (inLeft other member),
      ih' orderedRight fun other member => same other (inRight other member)⟩
    rw [same entry (by simp [entries])]
    rcases Multiset.mem_add.mp member with member' | member'
    · rw [same other (inLeft other member')]
      exact below other member
    · rw [same other (inRight other member')]
      exact below other member

/-- The root has the least key. -/
theorem Ordered.root_le {heap : Heap α} (ordered : Ordered key heap) (atRoot : heap.root = some entry)
    (member : other ∈ heap.entries) : key entry ≤ key other := by
  cases heap with
  | leaf => cases atRoot
  | node top left right =>
    cases atRoot
    rcases Multiset.mem_add.mp member with here | below
    · rw [Multiset.mem_singleton.mp here]
    · exact ordered.1 other below

/-- Merging keeps the order if the comparison agrees with the keys between the two heaps. -/
theorem Ordered.merge {heap heap' : Heap α} (ordered : Ordered key heap) (ordered' : Ordered key heap')
    (agrees : ∀ entry ∈ heap.entries, ∀ other ∈ heap'.entries,
      (less entry other = true ↔ key entry < key other)) : Ordered key (Heap.merge less heap heap') := by
  induction heap, heap' using merge_induction less with
  | none_left heap => exact ordered'
  | none_right entry left right => exact ordered
  | first entry left right other left' right' smaller ih =>
    obtain ⟨below, orderedLeft, orderedRight⟩ := ordered
    have least : key entry < key other :=
      (agrees entry (by simp [entries]) other (by simp [entries])).mp smaller
    refine ⟨fun inner member => ?_, ih orderedRight ordered' fun inner member => agrees inner
      (by simp [entries, member]), orderedLeft⟩
    simp only [merge_entries, Multiset.mem_add] at member
    rcases member with (member | member) | member
    · exact below inner (by simp [member])
    · exact least.le.trans (ordered'.root_le rfl member)
    · exact below inner (by simp [member])
  | second entry left right other left' right' smaller ih =>
    obtain ⟨below, orderedLeft, orderedRight⟩ := ordered'
    have least : key other ≤ key entry := not_lt.mp fun lower => by
      have := (agrees entry (by simp [entries]) other (by simp [entries])).mpr lower
      rw [smaller] at this
      cases this
    refine ⟨fun inner member => ?_, ih ordered orderedRight fun inner member other' member' =>
      agrees inner member other' (by simp [entries, member']), orderedLeft⟩
    simp only [merge_entries, Multiset.mem_add] at member
    rcases member with (member | member) | member
    · exact least.trans (ordered.root_le rfl member)
    · exact below inner (by simp [member])
    · exact below inner (by simp [member])

theorem Ordered.insert {heap : Heap α} (ordered : Ordered key heap)
    (agrees : ∀ other ∈ heap.entries, (less other entry = true ↔ key other < key entry)) :
    Ordered key (Heap.insert less heap entry) := by
  refine ordered.merge ⟨by simp [entries], trivial, trivial⟩ fun other member inner here => ?_
  obtain rfl : inner = entry := by simpa [entries] using here
  exact agrees other member

/-- Taking the root out keeps the order; how the root compares does not matter. -/
theorem Ordered.remove_root [DecidableEq α] {heap : Heap α} (ordered : Ordered key heap)
    (distinct : heap.entries.Nodup) (atRoot : heap.root = some entry)
    (agrees : ∀ inner ∈ heap.entries, inner ≠ entry → ∀ other ∈ heap.entries, other ≠ entry →
      (less inner other = true ↔ key inner < key other)) : Ordered key (heap.remove less entry) := by
  cases heap with
  | leaf => cases atRoot
  | node top left right =>
    cases atRoot
    have below (inner : α) (member : inner ∈ left.entries + right.entries) :
        inner ∈ (node entry left right).entries ∧ inner ≠ entry := by
      refine ⟨Multiset.mem_add.mpr (.inr member), ?_⟩
      rintro rfl
      exact (Multiset.nodup_cons.mp distinct).1 member
    rw [remove, if_pos rfl]
    refine ordered.2.1.merge ordered.2.2 fun inner member other member' => ?_
    obtain ⟨inside, apart⟩ := below inner (by simp [member])
    obtain ⟨inside', apart'⟩ := below other (by simp [member'])
    exact agrees inner inside apart other inside' apart'

/-- Taking any entry out keeps the order. -/
theorem Ordered.remove [DecidableEq α] {heap : Heap α} (ordered : Ordered key heap) (distinct : heap.entries.Nodup)
    (agrees : ∀ inner ∈ heap.entries, ∀ other ∈ heap.entries, (less inner other = true ↔ key inner < key other)) :
    Ordered key (heap.remove less entry) := by
  induction heap with
  | leaf => trivial
  | node top left right ih ih' =>
    obtain ⟨below, orderedLeft, orderedRight⟩ := ordered
    obtain ⟨-, distinctBelow⟩ := Multiset.nodup_cons.mp distinct
    obtain ⟨distinctLeft, distinctRight, -⟩ := Multiset.nodup_add.mp distinctBelow
    have inLeft (inner : α) (member : inner ∈ left.entries) : inner ∈ (node top left right).entries := by
      simp [entries, member]
    have inRight (inner : α) (member : inner ∈ right.entries) : inner ∈ (node top left right).entries := by
      simp [entries, member]
    rw [Heap.remove]
    split
    · exact orderedLeft.merge orderedRight fun inner member other member' =>
        agrees inner (inLeft inner member) other (inRight other member')
    · refine ⟨fun inner member => ?_, ?_, ?_⟩
      · rw [remove_entries distinctLeft, remove_entries distinctRight] at member
        apply below inner
        rcases Multiset.mem_add.mp member with member | member
        · exact Multiset.mem_add.mpr (.inl (Multiset.mem_of_mem_erase member))
        · exact Multiset.mem_add.mpr (.inr (Multiset.mem_of_mem_erase member))
      · exact ih orderedLeft distinctLeft fun inner member other member' =>
          agrees inner (inLeft inner member) other (inLeft other member')
      · exact ih' orderedRight distinctRight fun inner member other member' =>
          agrees inner (inRight inner member) other (inRight other member')

end Heap
end Ucore.SkewHeap
