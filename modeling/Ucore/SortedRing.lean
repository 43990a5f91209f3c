import Mathlib

/-! Circular singly linked lists that are sorted, with one step back down. Here
the nodes are a finite set and `next` is a function; a node goes in behind the one
place where the order has room for it, and out by linking its predecessor past it. -/
namespace Ucore

variable {α : Type*} [LinearOrder α]

/-- From a node `next` goes to the next higher one, and from the highest to the lowest. -/
structure SortedRing (next : α → α) (nodes : Finset α) : Prop where
  closed : ∀ x ∈ nodes, next x ∈ nodes
  step : ∀ x ∈ nodes, ∀ y ∈ nodes, (x < next x ∧ (y ≤ x ∨ next x ≤ y)) ∨ (next x ≤ y ∧ y ≤ x)

/-- Where a node goes in behind `cur`. -/
def Between (next : α → α) (cur node : α) : Prop :=
  (cur < node ∧ node < next cur) ∨ (next cur ≤ cur ∧ (cur < node ∨ node < next cur))

namespace SortedRing
variable {next other : α → α} {nodes : Finset α} {x y cur prev node : α}

theorem congr (ring : SortedRing next nodes) (same : ∀ x ∈ nodes, other x = next x) : SortedRing other nodes := by
  refine ⟨fun x member => ?_, fun x member y inside => ?_⟩
  · rw [same x member]
    exact ring.closed x member
  · rw [same x member]
    exact ring.step x member y inside

theorem insert (ring : SortedRing next nodes) (fresh : node ∉ nodes) (member : cur ∈ nodes)
    (place : Between next cur node) :
    SortedRing (Function.update (Function.update next node (next cur)) cur node) (Insert.insert node nodes) := by
  have apart : cur ≠ node := fun same => fresh (same ▸ member)
  refine ⟨fun x inside => ?_, fun x inside y within => ?_⟩
  · rcases Finset.mem_insert.mp inside with rfl | old
    · simp [Function.update_of_ne apart.symm, ring.closed cur member]
    · by_cases here : x = cur
      · simp [here]
      · have notNode : x ≠ node := fun same => fresh (same ▸ old)
        simp [here, notNode, ring.closed x old]
  · have around := ring.step cur member
    have onward := ring.closed cur member
    rcases Finset.mem_insert.mp inside with rfl | old
    · rw [Function.update_of_ne apart.symm, Function.update_self]
      rcases Finset.mem_insert.mp within with rfl | also
      · exact (lt_or_ge y (next cur)).imp (fun below => ⟨below, Or.inl le_rfl⟩) fun above => ⟨above, le_rfl⟩
      · have here := around y also
        unfold Between at place
        grind
    · have notNode : x ≠ node := fun same => fresh (same ▸ old)
      by_cases here : x = cur
      · subst here
        rw [Function.update_self]
        rcases Finset.mem_insert.mp within with rfl | also
        · have here := around x old
          unfold Between at place
          grind
        · have here := around y also
          unfold Between at place
          grind
      · rw [Function.update_of_ne here, Function.update_of_ne notNode]
        have fromX := ring.step x old
        rcases Finset.mem_insert.mp within with rfl | also
        · have one := fromX cur member
          have two := fromX (next cur) onward
          have three := around x old
          have four := around (next x) (ring.closed x old)
          unfold Between at place
          grind
        · exact fromX y also

theorem next_injOn (ring : SortedRing next nodes) : Set.InjOn next nodes := by
  intro x inside y also same
  have one := ring.step x inside y also
  have other := ring.step y also x inside
  rw [same] at one
  grind

theorem erase (ring : SortedRing next nodes) (member : prev ∈ nodes) (linked : next prev = cur)
    (apart : prev ≠ cur) : SortedRing (Function.update next prev (next cur)) (nodes.erase cur) := by
  have inside : cur ∈ nodes := linked ▸ ring.closed prev member
  refine ⟨fun x old => ?_, fun x old y also => ?_⟩
  · obtain ⟨notCur, old⟩ := Finset.mem_erase.mp old
    by_cases here : x = prev
    · subst here
      rw [Function.update_self]
      refine Finset.mem_erase.mpr ⟨fun same => apart ?_, ring.closed cur inside⟩
      exact ring.next_injOn old inside (linked.trans same.symm)
    · rw [Function.update_of_ne here]
      refine Finset.mem_erase.mpr ⟨fun same => here ?_, ring.closed x old⟩
      exact ring.next_injOn old member (same.trans linked.symm)
  · obtain ⟨notCur, old⟩ := Finset.mem_erase.mp old
    obtain ⟨notCurY, also⟩ := Finset.mem_erase.mp also
    by_cases here : x = prev
    · subst here
      rw [Function.update_self]
      have one := ring.step x old y also
      have two := ring.step cur inside y also
      have three := ring.step x old (next cur) (ring.closed cur inside)
      have four := ring.step cur inside x old
      rw [linked] at one three
      grind
    · rw [Function.update_of_ne here]
      exact ring.step x old y also

/-- The order has a place for every node that is not there. -/
theorem exists_between (ring : SortedRing next nodes) (some' : nodes.Nonempty) (fresh : node ∉ nodes) :
    ∃ cur ∈ nodes, Between next cur node := by
  have apart : ∀ x ∈ nodes, x ≠ node := fun x member same => fresh (same ▸ member)
  by_cases low : (nodes.filter (· < node)).Nonempty
  · obtain ⟨cur, here, highest⟩ := Finset.exists_max_image _ id low
    simp only [Finset.mem_filter, id, and_imp] at here highest
    refine ⟨cur, here.1, ?_⟩
    have onward := ring.closed cur here.1
    have ends := highest (next cur) onward
    have notNode := apart (next cur) onward
    unfold Between
    grind
  · obtain ⟨cur, here, highest⟩ := Finset.exists_max_image nodes id some'
    refine ⟨cur, here, ?_⟩
    have above : ∀ x ∈ nodes, node < x := by
      intro x member
      refine lt_of_le_of_ne (le_of_not_gt fun below => low ⟨x, by simp [member, below]⟩) (apart x member).symm
    exact Or.inr ⟨highest (next cur) (ring.closed cur here), Or.inr (above _ (ring.closed cur here))⟩

private theorem reaches_up (ring : SortedRing next nodes) (inside : x ∈ nodes) (also : y ∈ nodes) (upwards : x ≤ y) :
    ∃ k ≤ (nodes.filter fun z => x < z ∧ z ≤ y).card, next^[k] x = y := by
  induction restEq : (nodes.filter fun z => x < z ∧ z ≤ y).card using Nat.strong_induction_on generalizing x with
  | _ rest ih =>
    rcases eq_or_lt_of_le upwards with rfl | below
    · exact ⟨0, Nat.zero_le _, rfl⟩
    · have here := ring.step x inside y also
      have climbs : x < next x ∧ next x ≤ y := by grind
      have fewer : (nodes.filter fun z => next x < z ∧ z ≤ y).card < rest := by
        rw [← restEq]
        refine Finset.card_lt_card (Finset.ssubset_iff_of_subset ?_ |>.mpr ⟨next x, ?_, ?_⟩)
        · exact Finset.monotone_filter_right nodes fun z _ within => ⟨climbs.1.trans within.1, within.2⟩
        · simp [ring.closed x inside, climbs]
        · simp
      obtain ⟨k, few, reached⟩ := ih _ fewer (ring.closed x inside) climbs.2 rfl
      exact ⟨k + 1, by omega, reached⟩

/-- One round leads from a node to every node. -/
theorem reaches (ring : SortedRing next nodes) (inside : x ∈ nodes) (also : y ∈ nodes) :
    ∃ k < nodes.card, next^[k] x = y := by
  rcases le_or_gt x y with upwards | below
  · obtain ⟨k, few, reached⟩ := ring.reaches_up inside also upwards
    refine ⟨k, lt_of_le_of_lt few ?_, reached⟩
    refine Finset.card_lt_card (Finset.filter_ssubset.mpr ⟨x, inside, by simp⟩)
  · obtain ⟨top, here, highest⟩ := Finset.exists_max_image nodes id ⟨x, inside⟩
    have bottom : ∀ z ∈ nodes, next top ≤ z := by
      intro z member
      have one := ring.step top here z member
      have two := highest (next top) (ring.closed top here)
      simp only [id] at two
      grind
    obtain ⟨j, few, up⟩ := ring.reaches_up inside here (highest x inside)
    obtain ⟨k, less, down⟩ := ring.reaches_up (ring.closed top here) also (bottom y also)
    refine ⟨k + (j + 1), ?_, by rw [Function.iterate_add_apply, Function.iterate_succ_apply', up, down]⟩
    have lowest : next top < x := lt_of_le_of_lt (bottom y also) below
    have split : Disjoint (nodes.filter fun z => x < z ∧ z ≤ top) (nodes.filter fun z => next top < z ∧ z ≤ y) := by
      refine Finset.disjoint_left.mpr fun z high low => ?_
      simp only [Finset.mem_filter] at high low
      exact absurd (high.2.1.trans_le low.2.2) below.not_gt
    have all : Insert.insert x (Insert.insert (next top) ((nodes.filter fun z => x < z ∧ z ≤ top) ∪
        (nodes.filter fun z => next top < z ∧ z ≤ y))) ⊆ nodes := by
      intro z member
      simp only [Finset.mem_insert, Finset.mem_union, Finset.mem_filter] at member
      rcases member with rfl | rfl | ⟨old, -⟩ | ⟨old, -⟩
      · exact inside
      · exact ring.closed top here
      · exact old
      · exact old
    have count := Finset.card_le_card all
    rw [Finset.card_insert_of_notMem, Finset.card_insert_of_notMem, Finset.card_union_of_disjoint split] at count
    · omega
    · simp [lowest.not_gt]
    · simp [lowest.ne', below.not_ge]

end SortedRing
end Ucore
