import Mathlib

/-! Circular doubly linked lists over an arbitrary node type. A memory of
links is two functions, the successor and the predecessor of every node; a
ring is a list of distinct nodes that both functions walk, one forwards and
the other backwards. Splicing a node in or out changes the two neighbours
only, so each splice is proved once here, at any position of any ring. -/
namespace Ucore.Ring

/-- The successor and predecessor of every node, on a list or not. -/
structure Links (α : Type) where
  prev : α → α
  next : α → α

/-- `next` walks from `first` through `inner` to `last`, and `prev` walks the
same nodes back. The two ends may be one node, as they are in a ring. -/
def Segment (links : Links α) : α → List α → α → Prop
  | first, [], last => links.next first = last ∧ links.prev last = first
  | first, node :: inner, last =>
    links.next first = node ∧ links.prev node = first ∧ Segment links node inner last

/-- The nodes other than `head` of a circular list, in `next` order. -/
structure IsRing (links : Links α) (head : α) (nodes : List α) : Prop where
  distinct : (head :: nodes).Nodup
  linked : Segment links head nodes head

variable {links : Links α} {first last node head : α} {before after nodes : List α}

theorem segment_append :
    Segment links first (before ++ node :: after) last ↔
      Segment links first before node ∧ Segment links node after last := by
  induction before generalizing first with
  | nil => simp only [List.nil_append, Segment, and_assoc]
  | cons next before ih => simp only [List.cons_append, Segment, ih, and_assoc]

/-- A segment reads `next` at its nodes but the last and `prev` at its nodes
but the first, and nothing else. -/
theorem segment_congr {other : Links α} (walked : Segment links first nodes last)
    (forwards : ∀ x ∈ first :: nodes, other.next x = links.next x)
    (backwards : ∀ x ∈ nodes ++ [last], other.prev x = links.prev x) :
    Segment other first nodes last := by
  induction nodes generalizing first with
  | nil =>
    exact ⟨(forwards first (by simp)).trans walked.1, (backwards last (by simp)).trans walked.2⟩
  | cons node nodes ih =>
    refine ⟨(forwards first (by simp)).trans walked.1,
      (backwards node (by simp)).trans walked.2.1, ih walked.2.2 ?_ ?_⟩
    · exact fun x member => forwards x (List.mem_cons_of_mem _ member)
    · exact fun x member => backwards x (by simp [List.mem_cons_of_mem _ member])

/-- The predecessor of a segment's end is the node it was reached from. -/
theorem segment_prev_last (walked : Segment links first nodes last) :
    links.prev last = (first :: nodes).getLast (by simp) := by
  induction nodes generalizing first with
  | nil => exact walked.2
  | cons node nodes ih => simpa using ih walked.2.2

/-- The successor of a segment's start is the node walked to next. -/
theorem segment_next_first (walked : Segment links first nodes last) :
    links.next first = (nodes ++ [last]).head (by simp) := by
  cases nodes with
  | nil => exact walked.1
  | cons node nodes => exact walked.1

variable [DecidableEq α]

/-- Points `left` and `right` at `node`, and `node` at both of them. -/
def Links.splice (links : Links α) (node left right : α) : Links α where
  prev := Function.update (Function.update links.prev right node) node left
  next := Function.update (Function.update links.next left node) node right

/-- Points `left` and `right` at each other. -/
def Links.join (links : Links α) (left right : α) : Links α where
  prev := Function.update links.prev right left
  next := Function.update links.next left right

private theorem segment_splice_first (walked : Segment links first after last)
    (left : (first :: after).Nodup) (right : (after ++ [last]).Nodup)
    (fresh : node ∉ first :: after) (apart : node ≠ last) :
    Segment (links.splice node first (links.next first)) first (node :: after) last := by
  have own : node ≠ first := fun same => fresh (by simp [same])
  cases after with
  | nil =>
    obtain ⟨forward, backward⟩ := walked
    subst forward
    refine ⟨?_, by simp [Links.splice], by simp [Links.splice], ?_⟩
    · simp [Links.splice, own.symm]
    · simp [Links.splice, apart.symm]
  | cons next after =>
    obtain ⟨forward, backward, rest⟩ := walked
    subst forward
    have nextApart : links.next first ≠ node := fun same => fresh (by simp [same])
    refine ⟨by simp [Links.splice, own.symm], by simp [Links.splice], by simp [Links.splice],
      by simp [Links.splice, nextApart], segment_congr rest ?_ ?_⟩
    · intro x member
      have notNode : x ≠ node := fun same => fresh (by simp [← same, List.mem_cons.mp member])
      have notFirst : x ≠ first := fun same => (List.nodup_cons.mp left).1 (same ▸ member)
      simp [Links.splice, notNode, notFirst]
    · intro x member
      have notNode : x ≠ node := by
        rintro rfl
        rcases List.mem_append.mp member with inside | atEnd
        · exact fresh (by simp [inside])
        · exact apart (by simpa using atEnd)
      have notNext : x ≠ links.next first := by
        rintro rfl
        have unique : (links.next first :: (after ++ [last])).Nodup := right
        exact (List.nodup_cons.mp unique).1 member
      simp [Links.splice, notNode, notNext]

/-- Splicing a new node between two neighbours of a segment puts it between
them, wherever in the segment they are. -/
theorem segment_splice (walked : Segment links first (before ++ after) last)
    (left : (first :: (before ++ after)).Nodup) (right : (before ++ after ++ [last]).Nodup)
    (fresh : node ∉ first :: (before ++ after)) (apart : node ≠ last) :
    Segment (links.splice node ((first :: before).getLast (by simp))
      ((after ++ [last]).head (by simp))) first (before ++ node :: after) last := by
  induction before generalizing first with
  | nil =>
    have spliced := segment_splice_first walked left right fresh apart
    rwa [segment_next_first walked] at spliced
  | cons next before ih =>
    obtain ⟨forward, backward, rest⟩ := walked
    have inner : (next :: (before ++ after)).Nodup := (List.nodup_cons.mp left).2
    have outer : (before ++ after ++ [last]).Nodup := (List.nodup_cons.mp (by simpa using right)).2
    have spliced := ih rest inner outer (fun member => fresh (List.mem_cons_of_mem _ member))
    have notLeft : first ≠ (next :: before).getLast (by simp) := by
      intro same
      have member : first ∈ next :: before := same ▸ List.getLast_mem _
      exact (List.nodup_cons.mp left).1 (by
        simpa [or_assoc] using Or.inl (b := first ∈ after) (List.mem_cons.mp member))
    have notRight : next ≠ (after ++ [last]).head (by simp) := by
      intro same
      have member : next ∈ after ++ [last] := same ▸ List.head_mem _
      have split := List.nodup_cons.mp (by simpa using right : (next :: (before ++ (after ++ [last]))).Nodup)
      exact split.1 (List.mem_append_right _ member)
    have firstFresh : first ≠ node := fun same => fresh (by simp [same])
    have nextFresh : next ≠ node := fun same => fresh (by simp [same])
    refine ⟨?_, ?_, by simpa using spliced⟩
    · simp [Links.splice, firstFresh, notLeft, forward]
    · simp [Links.splice, nextFresh, notRight, backward]

/-- Joining the two neighbours of a node takes exactly that node out. -/
theorem segment_join (walked : Segment links first (before ++ node :: after) last)
    (left : (first :: (before ++ node :: after)).Nodup)
    (right : (before ++ node :: after ++ [last]).Nodup) :
    Segment (links.join (links.prev node) (links.next node)) first (before ++ after) last := by
  induction before generalizing first with
  | nil =>
    obtain ⟨forward, backward, rest⟩ := walked
    cases after with
    | nil =>
      obtain ⟨onward, _⟩ := rest
      simp [Segment, Links.join, backward, onward]
    | cons next after =>
      obtain ⟨onward, _, rest⟩ := rest
      refine ⟨by simp [Links.join, backward, onward], by simp [Links.join, backward, onward],
        segment_congr rest ?_ ?_⟩
      · intro x member
        have apart : x ≠ first := by
          rintro rfl
          exact (List.nodup_cons.mp left).1 (by simp [List.mem_cons.mp member])
        simp [Links.join, backward, apart]
      · intro x member
        have apart : x ≠ next := by
          rintro rfl
          have unique : (node :: x :: (after ++ [last])).Nodup := right
          exact (List.nodup_cons.mp (List.nodup_cons.mp unique).2).1 member
        simp [Links.join, onward, apart]
  | cons next before ih =>
    obtain ⟨forward, backward, rest⟩ := walked
    have inner : (next :: (before ++ node :: after)).Nodup := (List.nodup_cons.mp left).2
    have outer : (before ++ node :: after ++ [last]).Nodup :=
      (List.nodup_cons.mp (by simpa using right)).2
    obtain ⟨reached, onward⟩ := segment_append.mp rest
    have notPrev : first ≠ links.prev node := by
      rw [segment_prev_last reached]
      intro same
      have member : first ∈ next :: before := same ▸ List.getLast_mem _
      exact (List.nodup_cons.mp left).1 (by
        have := List.mem_cons.mp member
        simp only [List.cons_append, List.mem_cons, List.mem_append]
        tauto)
    have notNext : next ≠ links.next node := by
      rw [segment_next_first onward]
      intro same
      have member : next ∈ after ++ [last] := same ▸ List.head_mem _
      have split := List.nodup_cons.mp
        (by simpa using right : (next :: (before ++ node :: (after ++ [last]))).Nodup)
      exact split.1 (List.mem_append_right _ (List.mem_cons_of_mem _ member))
    refine ⟨?_, ?_, ih rest inner outer⟩
    · simp [Links.join, notPrev, forward]
    · simp [Links.join, notNext, backward]

omit [DecidableEq α] in
private theorem ring_tail_distinct (distinct : (head :: nodes).Nodup) : (nodes ++ [head]).Nodup :=
  (List.perm_append_singleton head nodes).nodup_iff.mpr distinct

/-- Splicing a new node into a ring between two neighbours. -/
theorem IsRing.splice (ring : IsRing links head (before ++ after))
    (fresh : node ∉ head :: (before ++ after)) :
    IsRing (links.splice node ((head :: before).getLast (by simp))
      ((after ++ [head]).head (by simp))) head (before ++ node :: after) where
  distinct := by
    have shuffled : List.Perm (head :: (before ++ node :: after))
        (node :: head :: (before ++ after)) :=
      (List.perm_middle.cons head).trans (List.Perm.swap node head _)
    exact shuffled.nodup_iff.mpr (List.nodup_cons.mpr ⟨fresh, ring.distinct⟩)
  linked := segment_splice ring.linked ring.distinct (ring_tail_distinct ring.distinct) fresh
    (fun same => fresh (by simp [same]))

/-- Taking a node out of a ring by joining its neighbours. -/
theorem IsRing.join (ring : IsRing links head (before ++ node :: after)) :
    IsRing (links.join (links.prev node) (links.next node)) head (before ++ after) where
  distinct := by
    refine ring.distinct.sublist (List.Sublist.cons_cons head ?_)
    exact List.Sublist.append_left (List.sublist_cons_self _ _) before
  linked := segment_join ring.linked ring.distinct (ring_tail_distinct ring.distinct)

omit [DecidableEq α]

/-- A ring depends on its own nodes only. -/
theorem IsRing.congr {other : Links α} (ring : IsRing links head nodes)
    (same : ∀ x ∈ head :: nodes, other.next x = links.next x ∧ other.prev x = links.prev x) : IsRing other head nodes := by
  refine ⟨ring.distinct, segment_congr ring.linked (fun x inside => (same x inside).1) fun x inside => (same x ?_).2⟩
  rcases List.mem_append.mp inside with among | atHead
  · exact List.mem_cons_of_mem _ among
  · exact List.mem_cons.mpr (.inl (List.mem_singleton.mp atHead))

/-- The last node of a ring is the head's predecessor. -/
theorem IsRing.prev_head (ring : IsRing links head nodes) :
    links.prev head = (head :: nodes).getLast (by simp) :=
  segment_prev_last ring.linked

/-- The first node of a ring is the head's successor. -/
theorem IsRing.next_head (ring : IsRing links head nodes) :
    links.next head = (nodes ++ [head]).head (by simp) :=
  segment_next_first ring.linked

theorem IsRing.prev_node (ring : IsRing links head (before ++ node :: after)) :
    links.prev node = (head :: before).getLast (by simp) :=
  segment_prev_last (segment_append.mp ring.linked).1

theorem IsRing.next_node (ring : IsRing links head (before ++ node :: after)) :
    links.next node = (after ++ [head]).head (by simp) :=
  segment_next_first (segment_append.mp ring.linked).2

/-- The successor of the last of `before`, the head included, is the first of what follows. -/
theorem IsRing.next_between (ring : IsRing links head (before ++ after)) :
    links.next ((head :: before).getLast (by simp)) = (after ++ [head]).head (by simp) := by
  rcases List.eq_nil_or_concat before with rfl | ⟨earlier, last, rfl⟩
  · simpa using ring.next_head
  · have split : earlier.concat last ++ after = earlier ++ last :: after := by simp
    rw [split] at ring
    simpa using ring.next_node

/-- Only a head with no other nodes is its own successor. -/
theorem IsRing.next_head_eq (ring : IsRing links head nodes) :
    links.next head = head ↔ nodes = [] := by
  rw [ring.next_head]
  cases nodes with
  | nil => simp
  | cons node nodes =>
    have apart : node ≠ head := fun same => by simpa [same] using ring.distinct
    simp [apart]

/-- No node of a ring is its own predecessor, the head of an empty ring apart. -/
theorem IsRing.prev_ne_self (ring : IsRing links head nodes) (member : node ∈ nodes) :
    links.prev node ≠ node := by
  obtain ⟨before, after, rfl⟩ := List.append_of_mem member
  rw [ring.prev_node]
  intro same
  have reached : node ∈ head :: before := by
    have member := List.getLast_mem (l := head :: before) (by simp)
    rwa [same] at member
  have distinct := ring.distinct
  rw [← List.cons_append, List.nodup_append] at distinct
  exact distinct.2.2 node reached node (by simp) rfl

end Ucore.Ring
