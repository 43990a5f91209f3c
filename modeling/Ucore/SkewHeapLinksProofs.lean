import Ucore.SkewHeapLinks
import Ucore.Runs

/-! The heap in memory does what the heap of a tree does: a merge gives the
merged tree and a removal the tree without the entry, with the parents of all
entries kept. Then each heap of a program holds what was put into it. -/
namespace Ucore.SkewHeapLinksProofs
open SkewHeap SkewHeap.Heap SkewHeapLinks Runs

variable {α : Type} {mem after : Memory α} {a b p : Option α} {heap heap' left right : Heap α}
  {comp : α → α → Int} {entry x : α}

/-! ## Trees in memory -/

/-- The entry at the top of the tree, if there is one, points to this parent. -/
def Under (mem : Memory α) (parent : Option α) (tree : Heap α) : Prop := ∀ c, tree.root = some c → (mem c).parent = parent

/-- The children's pointers from here on are those of the tree, and each entry below points to its parent. -/
def Shaped (mem : Memory α) : Option α → Heap α → Prop
  | a, .leaf => a = none
  | a, .node entry left right => a = some entry ∧
    (Under mem (some entry) left ∧ Shaped mem (mem entry).left left) ∧
    Under mem (some entry) right ∧ Shaped mem (mem entry).right right

theorem Shaped.root (shaped : Shaped mem a heap) : a = heap.root := by
  cases heap with
  | leaf => exact shaped
  | node => exact shaped.1

theorem Shaped.unique (shaped : Shaped mem a heap) (shaped' : Shaped mem a heap') : heap = heap' := by
  induction heap generalizing a heap' with
  | leaf =>
    cases heap' with
    | leaf => rfl
    | node => cases shaped.symm.trans shaped'.1
  | node entry left right ihLeft ihRight =>
    cases heap' with
    | leaf => cases shaped.1.symm.trans shaped'
    | node other left' right' =>
      obtain rfl := Option.some.inj (shaped.1.symm.trans shaped'.1)
      rw [ihLeft shaped.2.1.2 shaped'.2.1.2, ihRight shaped.2.2.2 shaped'.2.2.2]

theorem Under.congr {parent : Option α} (under : Under mem parent heap)
    (same : ∀ x ∈ heap.entries, (after x).parent = (mem x).parent) : Under after parent heap :=
  fun c top => (same c (mem_of_root top)).trans (under c top)

/-- The tree reads the children of its entries and the parents of those below its root. -/
theorem Shaped.congr (shaped : Shaped mem a heap) (distinct : heap.entries.Nodup)
    (children : ∀ x ∈ heap.entries, (after x).left = (mem x).left ∧ (after x).right = (mem x).right)
    (parents : ∀ x ∈ heap.entries, heap.root ≠ some x → (after x).parent = (mem x).parent) : Shaped after a heap := by
  induction heap generalizing a with
  | leaf => exact shaped
  | node entry left right ihLeft ihRight =>
    obtain ⟨here, ⟨underLeft, shapedLeft⟩, underRight, shapedRight⟩ := shaped
    obtain ⟨fresh, distinct⟩ := Multiset.nodup_cons.mp distinct
    obtain ⟨distinctLeft, distinctRight, -⟩ := Multiset.nodup_add.mp distinct
    have apart (x : α) (member : x ∈ left.entries + right.entries) : (after x).parent = (mem x).parent := by
      apply parents x (by simpa [entries] using Or.inr (Multiset.mem_add.mp member))
      rintro ⟨⟩
      exact fresh member
    have own := children entry (by simp [entries])
    refine ⟨here, ⟨underLeft.congr fun x member => apart x (Multiset.mem_add.mpr (.inl member)), ?_⟩,
      underRight.congr fun x member => apart x (Multiset.mem_add.mpr (.inr member)), ?_⟩
    · rw [own.1]
      apply ihLeft shapedLeft distinctLeft
      · exact fun x member => children x (by simp [entries, member])
      · exact fun x member _ => apart x (Multiset.mem_add.mpr (.inl member))
    · rw [own.2]
      apply ihRight shapedRight distinctRight
      · exact fun x member => children x (by simp [entries, member])
      · exact fun x member _ => apart x (Multiset.mem_add.mpr (.inr member))

theorem Shaped.frame (shaped : Shaped mem a heap) (distinct : heap.entries.Nodup)
    (same : ∀ x ∈ heap.entries, after x = mem x) : Shaped after a heap :=
  shaped.congr distinct (fun x member => by simp [same x member]) fun x member _ => by rw [same x member]

theorem Under.frame {parent : Option α} (under : Under mem parent heap) (same : ∀ x ∈ heap.entries, after x = mem x) :
    Under after parent heap := under.congr fun x member => by rw [same x member]

/-! ## Merging -/

variable [DecidableEq α]

/-- The comparison as the trees use it. -/
def less (comp : α → α → Int) (a b : α) : Bool := comp a b = -1

theorem setParent_other (node parent : Option α) (apart : node ≠ some x) : setParent mem node parent x = mem x := by
  cases node with
  | none => rfl
  | some node =>
    have different : x ≠ node := fun same => apart (by rw [same])
    simp [setParent, different]

theorem setParent_left (node parent : Option α) : (setParent mem node parent x).left = (mem x).left := by
  cases node with
  | none => rfl
  | some node => by_cases same : x = node <;> simp [setParent, same]

theorem setParent_right (node parent : Option α) : (setParent mem node parent x).right = (mem x).right := by
  cases node with
  | none => rfl
  | some node => by_cases same : x = node <;> simp [setParent, same]

theorem setParent_own (x : α) (parent : Option α) : (setParent mem (some x) parent x).parent = parent := by
  simp [setParent]

/-- The top of a tree gets a new parent. -/
theorem Shaped.setParent (shaped : Shaped mem a heap) (distinct : heap.entries.Nodup) (parent : Option α) :
    Shaped (SkewHeapLinks.setParent mem a parent) a heap ∧ Under (SkewHeapLinks.setParent mem a parent) parent heap := by
  constructor
  · apply shaped.congr distinct
    · exact fun x _ => ⟨setParent_left a parent, setParent_right a parent⟩
    · intro x _ below
      rw [← shaped.root] at below
      rw [setParent_other a parent below]
  · intro c top
    rw [shaped.root, top]
    exact setParent_own c parent

/-- An entry adopts a merged tree on its left and keeps its left child on its right. -/
theorem adopt_shaped {l : Option α} {merged : Heap α} (shaped : Shaped after l merged) (merged_distinct : merged.entries.Nodup)
    (kept : Shaped mem (mem entry).left left) (under : Under mem (some entry) left) (left_distinct : left.entries.Nodup)
    (fresh : entry ∉ merged.entries + left.entries) (apart : Disjoint merged.entries left.entries)
    (same : ∀ x ∈ left.entries, after x = mem x) :
    Shaped (adopt after entry l (mem entry).left) (some entry) (.node entry merged left) ∧
      (∀ x ∉ merged.entries + {entry}, adopt after entry l (mem entry).left x = after x) ∧
      (adopt after entry l (mem entry).left entry).parent = (after entry).parent := by
  obtain ⟨newMerged, newLeft⟩ : entry ∉ merged.entries ∧ entry ∉ left.entries := by simpa using fresh
  let set := Function.update after entry { after entry with left := l, right := (mem entry).left }
  have off_entry (x : α) (other : x ≠ entry) : set x = after x := by simp [set, other]
  have shaped_set : Shaped set l merged :=
    shaped.frame merged_distinct fun x member => off_entry x fun same => newMerged (same ▸ member)
  have top_merged (x : α) (outside : x ∉ merged.entries) : l ≠ some x := by
    rintro rfl
    exact outside (mem_of_root shaped.root.symm)
  have left_set (x : α) (member : x ∈ left.entries) : SkewHeapLinks.setParent set l (some entry) x = mem x := by
    rw [setParent_other l (some entry) (top_merged x fun inMerged => Multiset.disjoint_left.mp apart inMerged member),
      off_entry x fun same => newLeft (same ▸ member), same x member]
  have own_left : (SkewHeapLinks.setParent set l (some entry) entry).left = l := by
    rw [setParent_left]
    simp [set]
  have own_right : (SkewHeapLinks.setParent set l (some entry) entry).right = (mem entry).left := by
    rw [setParent_right]
    simp [set]
  have adopted := shaped_set.setParent merged_distinct (some entry)
  refine ⟨⟨rfl, ⟨adopted.2, ?_⟩, under.frame left_set, ?_⟩, fun x outside => ?_, ?_⟩
  · exact own_left.symm ▸ adopted.1
  · exact own_right.symm ▸ kept.frame left_distinct left_set
  · obtain ⟨outMerged, other⟩ : x ∉ merged.entries ∧ x ≠ entry := by simpa using outside
    exact (setParent_other l (some entry) (top_merged x outMerged)).trans (off_entry x other)
  · have own : SkewHeapLinks.setParent set l (some entry) entry = set entry :=
      setParent_other l (some entry) (top_merged entry newMerged)
    change (SkewHeapLinks.setParent set l (some entry) entry).parent = (after entry).parent
    simp [own, set]

omit [DecidableEq α] in
theorem merge_root (comp : α → α → Int) (heap heap' : Heap α) :
    (merge (less comp) heap heap').root = heap.root ∨ (merge (less comp) heap heap').root = heap'.root := by
  cases heap with
  | leaf => exact .inr rfl
  | node entry left right =>
    cases heap' with
    | leaf => exact .inl rfl
    | node other left' right' =>
      rw [merge_node]
      split
      · exact .inl rfl
      · exact .inr rfl

/-- The merge changes the entries of its two trees only, and no parent of the entry that it returns. -/
structure Merged (mem : Memory α) (heap heap' merged : Heap α) (after : Memory α) : Prop where
  shaped : Shaped after merged.root merged
  other : ∀ x ∉ heap.entries + heap'.entries, after x = mem x
  top : ∀ x, merged.root = some x → (after x).parent = (mem x).parent

/-- The step of the recursion: the entry on top adopts what has been merged below. -/
theorem Merged.adopt {inner inner' outer outer' merged : Heap α} (done : Merged mem inner inner' merged after)
    (content : merged.entries = inner.entries + inner'.entries)
    (split : outer.entries + outer'.entries = {entry} + left.entries + (inner.entries + inner'.entries))
    (distinct : (outer.entries + outer'.entries).Nodup) (kept : Shaped mem (mem entry).left left)
    (under : Under mem (some entry) left) :
    Merged mem outer outer' (.node entry merged left) (adopt after entry merged.root (mem entry).left) := by
  rw [split] at distinct
  obtain ⟨own_distinct, inner_distinct, apart⟩ := Multiset.nodup_add.mp distinct
  obtain ⟨-, left_distinct, own_apart⟩ := Multiset.nodup_add.mp own_distinct
  have outside (x : α) (member : x ∈ {entry} + left.entries) : x ∉ inner.entries + inner'.entries :=
    fun inInner => Multiset.disjoint_left.mp apart member inInner
  have new_left : entry ∉ left.entries :=
    fun inLeft => Multiset.disjoint_left.mp own_apart (Multiset.mem_singleton_self entry) inLeft
  have new_inner : entry ∉ inner.entries + inner'.entries := outside entry (by simp)
  have adopted := adopt_shaped done.shaped (content ▸ inner_distinct) kept under left_distinct
    (by rw [content, Multiset.mem_add, not_or]; exact ⟨new_inner, new_left⟩)
    (by
      rw [content]
      exact Multiset.disjoint_left.mpr fun inInner inLeft => outside _ (by simp [inLeft]) inInner)
    (fun x member => done.other x (outside x (by simp [member])))
  refine ⟨adopted.1, fun x other => ?_, ?_⟩
  · rw [split] at other
    simp only [Multiset.mem_add, Multiset.mem_singleton, not_or] at other
    rw [adopted.2.1 x (by simp [content, other]), done.other x (by simp [other])]
  · rintro _ ⟨⟩
    rw [adopted.2.2, done.other entry new_inner]

theorem merge_returns (comp : α → α → Int) (turns : Nat) (shaped : Shaped mem a heap) (shaped' : Shaped mem b heap')
    (distinct : (heap.entries + heap'.entries).Nodup) (enough : (heap.entries + heap'.entries).card < turns) :
    ∃ after, skewHeapMerge comp turns mem a b = some ((merge (less comp) heap heap').root, after) ∧
      Merged mem heap heap' (merge (less comp) heap heap') after := by
  induction heap, heap' using merge_induction (less comp) generalizing mem a b turns with
  | none_left heap =>
    obtain rfl : a = none := shaped
    obtain ⟨turns, rfl⟩ := Nat.exists_eq_succ_of_ne_zero (Nat.ne_zero_of_lt enough)
    refine ⟨mem, ?_, shaped'.root ▸ shaped', fun _ _ => rfl, fun _ _ => rfl⟩
    rw [skewHeapMerge, shaped'.root]
  | none_right entry left right =>
    obtain rfl : b = none := shaped'
    obtain ⟨turns, rfl⟩ := Nat.exists_eq_succ_of_ne_zero (Nat.ne_zero_of_lt enough)
    obtain rfl := shaped.root
    exact ⟨mem, rfl, shaped, fun _ _ => rfl, fun _ _ => rfl⟩
  | first entry left right other left' right' smaller ih =>
    obtain ⟨turns, rfl⟩ := Nat.exists_eq_succ_of_ne_zero (Nat.ne_zero_of_lt enough)
    obtain ⟨rfl, ⟨under, kept⟩, -, shapedRight⟩ := shaped
    obtain rfl := shaped'.root
    have split : (node entry left right).entries + (node other left' right').entries =
        {entry} + left.entries + (right.entries + (node other left' right').entries) := by
      simp only [entries]
      abel
    have inner_distinct := (Multiset.nodup_add.mp (split ▸ distinct)).2.1
    have inner_enough : (right.entries + (node other left' right').entries).card < turns := by
      have count := congrArg Multiset.card split
      simp only [Multiset.card_add, Multiset.card_singleton] at count enough ⊢
      omega
    obtain ⟨after, ran, done⟩ := ih turns shapedRight shaped' inner_distinct inner_enough
    have content : (merge (less comp) right (node other left' right')).entries = _ := merge_entries _ _
    refine ⟨_, ?_, done.adopt content split distinct kept under⟩
    have lower : comp entry other = -1 := by simpa [less] using smaller
    change (skewHeapMerge comp (turns + 1) mem (some entry) (some other)) = _
    rw [skewHeapMerge, if_pos lower, show skewHeapMerge comp turns mem _ (some other) = _ from ran]
    rfl
  | second entry left right other left' right' smaller ih =>
    obtain ⟨turns, rfl⟩ := Nat.exists_eq_succ_of_ne_zero (Nat.ne_zero_of_lt enough)
    obtain ⟨rfl, ⟨under, kept⟩, -, shapedRight⟩ := shaped'
    obtain rfl := shaped.root
    have split : (node entry left right).entries + (node other left' right').entries =
        {other} + left'.entries + ((node entry left right).entries + right'.entries) := by
      simp only [entries]
      abel
    have inner_distinct := (Multiset.nodup_add.mp (split ▸ distinct)).2.1
    have inner_enough : ((node entry left right).entries + right'.entries).card < turns := by
      have count := congrArg Multiset.card split
      simp only [Multiset.card_add, Multiset.card_singleton] at count enough ⊢
      omega
    obtain ⟨after, ran, done⟩ := ih turns shaped shapedRight inner_distinct inner_enough
    have content : (merge (less comp) (node entry left right) right').entries = _ := merge_entries _ _
    refine ⟨_, ?_, done.adopt content split distinct kept under⟩
    have higher : ¬ comp entry other = -1 := by simpa [less] using smaller
    change (skewHeapMerge comp (turns + 1) mem (some entry) (some other)) = _
    rw [skewHeapMerge, if_neg higher, show skewHeapMerge comp turns mem (some entry) _ = _ from ran]
    rfl

/-! ## Removing -/

omit [DecidableEq α] in
/-- The children of an entry are the roots of the trees below it. -/
theorem Shaped.exists_below (shaped : Shaped mem a heap) (member : entry ∈ heap.entries) :
    ∃ left right, Shaped mem (mem entry).left left ∧ Shaped mem (mem entry).right right ∧
      {entry} + (left.entries + right.entries) ≤ heap.entries := by
  induction heap generalizing a with
  | leaf => exact absurd member (Multiset.notMem_zero entry)
  | node other left right ihLeft ihRight =>
    obtain ⟨-, ⟨-, shapedLeft⟩, -, shapedRight⟩ := shaped
    simp only [entries, Multiset.mem_add, Multiset.mem_singleton] at member
    rcases member with rfl | inLeft | inRight
    · exact ⟨left, right, shapedLeft, shapedRight, le_rfl⟩
    · obtain ⟨left', right', shaped, shaped', within⟩ := ihLeft shapedLeft inLeft
      refine ⟨left', right', shaped, shaped', within.trans ?_⟩
      exact (Multiset.le_add_right _ _).trans (Multiset.le_add_left _ _)
    · obtain ⟨left', right', shaped, shaped', within⟩ := ihRight shapedRight inRight
      refine ⟨left', right', shaped, shaped', within.trans ?_⟩
      exact (Multiset.le_add_left _ _).trans (Multiset.le_add_left _ _)

omit [DecidableEq α] in
theorem Shaped.below (shaped : Shaped mem a heap) (member : entry ∈ heap.entries)
    (shapedLeft : Shaped mem (mem entry).left left) (shapedRight : Shaped mem (mem entry).right right) :
    {entry} + (left.entries + right.entries) ≤ heap.entries := by
  obtain ⟨left', right', shapedLeft', shapedRight', within⟩ := shaped.exists_below member
  rwa [shapedLeft.unique shapedLeft', shapedRight.unique shapedRight']

omit [DecidableEq α] in
theorem Shaped.off_below (shaped : Shaped mem a heap) (member : entry ∈ heap.entries)
    (shapedLeft : Shaped mem (mem entry).left left) (shapedRight : Shaped mem (mem entry).right right)
    (outside : x ∉ heap.entries) : x ∉ left.entries + right.entries := fun inside =>
  outside (Multiset.mem_of_le (shaped.below member shapedLeft shapedRight) (Multiset.mem_add.mpr (.inr inside)))

omit [DecidableEq α] in
/-- The root is not below any other entry. -/
theorem Shaped.root_off_below {c : α} (shaped : Shaped mem a heap) (distinct : heap.entries.Nodup)
    (member : entry ∈ heap.entries) (inner : heap.root ≠ some entry) (shapedLeft : Shaped mem (mem entry).left left)
    (shapedRight : Shaped mem (mem entry).right right) (top : heap.root = some c) : c ∉ left.entries + right.entries := by
  cases heap with
  | leaf => cases top
  | node other left' right' =>
    cases top
    obtain ⟨-, ⟨-, shapedLeft'⟩, -, shapedRight'⟩ := shaped
    have fresh := (Multiset.nodup_cons.mp distinct).1
    simp only [Multiset.mem_add, not_or] at fresh
    simp only [entries, Multiset.mem_add, Multiset.mem_singleton] at member
    rcases member with rfl | inLeft | inRight
    · exact absurd rfl inner
    · exact shapedLeft'.off_below inLeft shapedLeft shapedRight fresh.1
    · exact shapedRight'.off_below inRight shapedLeft shapedRight fresh.2

theorem replaceChild_other (mem : Memory α) (rep : Option α) {p b : α} (apart : x ≠ p) :
    replaceChild mem p b rep x = mem x := by
  rw [replaceChild]
  split <;> simp [apart]

theorem replaceChild_parent (mem : Memory α) (rep : Option α) (p b x : α) :
    (replaceChild mem p b rep x).parent = (mem x).parent := by
  by_cases same : x = p
  · rw [replaceChild]
    split <;> simp [same]
  · rw [replaceChild_other mem rep same]

theorem replaceChild_left (mem : Memory α) (rep : Option α) {p b : α} (child : (mem p).left = some b) :
    replaceChild mem p b rep p = { mem p with left := rep } := by
  rw [replaceChild, if_pos child, Function.update_self]

theorem replaceChild_right (mem : Memory α) (rep : Option α) {p b : α} (child : (mem p).left ≠ some b) :
    replaceChild mem p b rep p = { mem p with right := rep } := by
  rw [replaceChild, if_neg child, Function.update_self]

theorem remove_root (inner : heap.root ≠ some entry) : (heap.remove (less comp) entry).root = heap.root := by
  cases heap with
  | leaf => rfl
  | node other left right =>
    rw [remove, if_neg fun same => inner (congrArg some same)]
    rfl

/-- A tree whose root is not the entry is its node with the entry taken out of the child that has it. -/
theorem remove_left {other : α} (apart : other ≠ entry) (absent : entry ∉ right.entries) :
    Heap.remove (less comp) entry (.node other left right) = .node other (left.remove (less comp) entry) right := by
  rw [remove, if_neg apart, remove_absent absent]

theorem remove_right {other : α} (apart : other ≠ entry) (absent : entry ∉ left.entries) :
    Heap.remove (less comp) entry (.node other left right) = .node other left (right.remove (less comp) entry) := by
  rw [remove, if_neg apart, remove_absent absent]

omit [DecidableEq α] in
/-- A tree with the entry on top is its node with the trees at its children. -/
theorem Shaped.at_top (shaped : Shaped mem a heap) (top : heap.root = some entry)
    (shapedLeft : Shaped mem (mem entry).left left) (shapedRight : Shaped mem (mem entry).right right) :
    heap = .node entry left right := by
  cases heap with
  | leaf => cases top
  | node other left' right' =>
    cases top
    rw [shaped.2.1.2.unique shapedLeft, shaped.2.2.2.unique shapedRight]

/-- The merged children of an entry below the root take its place. -/
theorem splice_shaped (shaped : Shaped mem a heap) (distinct : heap.entries.Nodup)
    (member : entry ∈ heap.entries) (inner : heap.root ≠ some entry) (shapedLeft : Shaped mem (mem entry).left left)
    (shapedRight : Shaped mem (mem entry).right right)
    (merged : Shaped after (merge (less comp) left right).root (merge (less comp) left right))
    (parent : Under after (mem entry).parent (merge (less comp) left right))
    (same : ∀ x ∈ heap.entries, x ∉ left.entries + right.entries → after x = mem x) :
    ∃ p ∈ heap.entries, (mem entry).parent = some p ∧
      Shaped (replaceChild after p entry (merge (less comp) left right).root) a (heap.remove (less comp) entry) := by
  induction heap generalizing a with
  | leaf => exact absurd member (Multiset.notMem_zero entry)
  | node other left' right' ihLeft ihRight =>
    obtain ⟨here, ⟨underLeft, shapedLeft'⟩, underRight, shapedRight'⟩ := shaped
    obtain ⟨fresh, distinct⟩ := Multiset.nodup_cons.mp distinct
    obtain ⟨distinctLeft, distinctRight, apart⟩ := Multiset.nodup_add.mp distinct
    simp only [Multiset.mem_add, not_or] at fresh
    have other_ne : other ≠ entry := fun same => inner (congrArg some same)
    have content : (merge (less comp) left right).entries = _ := merge_entries _ _
    have frame (tree : Heap α) (p : α) (rep : Option α) (absent : p ∉ tree.entries) :
        ∀ x ∈ tree.entries, replaceChild after p entry rep x = after x :=
      fun x member => replaceChild_other after rep fun same => absent (same ▸ member)
    have same (x : α) (member : x = other ∨ x ∈ left'.entries ∨ x ∈ right'.entries)
        (outside : x ∉ left.entries + right.entries) : after x = mem x :=
      same x (by simpa [entries] using member) outside
    simp only [entries, Multiset.mem_add, Multiset.mem_singleton] at member ⊢
    rcases member with rfl | inLeft | inRight
    · exact absurd rfl inner
    · have off := fun x => shapedLeft'.off_below (x := x) inLeft shapedLeft shapedRight
      have same_other : after other = mem other := same other (.inl rfl) (off other fresh.1)
      have off_right (x : α) (member : x ∈ right'.entries) : x ∉ left'.entries :=
        fun inside => Multiset.disjoint_left.mp apart inside member
      have same_right : ∀ x ∈ right'.entries, after x = mem x :=
        fun x member => same x (.inr (.inr member)) (off x (off_right x member))
      have kept := shapedRight'.frame distinctRight same_right
      have under := underRight.frame same_right
      rw [remove_left other_ne (Multiset.disjoint_left.mp apart inLeft)]
      by_cases top : left'.root = some entry
      · have tree := shapedLeft'.at_top top shapedLeft shapedRight
        have child : (after other).left = some entry := by rw [same_other, shapedLeft'.root, top]
        have own := replaceChild_left after (merge (less comp) left right).root child
        have merged_distinct : (merge (less comp) left right).entries.Nodup := by
          rw [tree] at distinctLeft
          rw [content]
          exact (Multiset.nodup_cons.mp distinctLeft).2
        have fresh_merged : other ∉ (merge (less comp) left right).entries := content ▸ off other fresh.1
        rw [underLeft entry top] at parent
        have replaced : left'.remove (less comp) entry = merge (less comp) left right := by
          rw [tree, Heap.remove, if_pos rfl]
        refine ⟨other, .inl rfl, underLeft entry top, here, ?_, ?_⟩
        · rw [own, replaced]
          exact ⟨parent.frame (frame _ _ _ fresh_merged), merged.frame merged_distinct (frame _ _ _ fresh_merged)⟩
        · rw [own]
          refine ⟨under.frame (frame _ _ _ fresh.2), ?_⟩
          rw [same_other]
          exact kept.frame distinctRight (frame _ _ _ fresh.2)
      · obtain ⟨p, inside, parent_eq, shaped⟩ :=
          ihLeft shapedLeft' distinctLeft inLeft top fun x member => same x (.inr (.inl member))
        have other_ne_p : other ≠ p := by
          rintro rfl
          exact fresh.1 inside
        have other_kept : replaceChild after p entry (merge (less comp) left right).root other = mem other := by
          rw [replaceChild_other after _ other_ne_p, same_other]
        have away : p ∉ right'.entries := fun member => off_right p member inside
        refine ⟨p, .inr (.inl inside), parent_eq, here, ⟨fun c top' => ?_, ?_⟩, under.frame (frame _ _ _ away), ?_⟩
        · rw [remove_root top] at top'
          rw [replaceChild_parent, same c (.inr (.inl (mem_of_root top')))
            (shapedLeft'.root_off_below distinctLeft inLeft top shapedLeft shapedRight top')]
          exact underLeft c top'
        · rw [other_kept]
          exact shaped
        · rw [other_kept]
          exact kept.frame distinctRight (frame _ _ _ away)
    · have off := fun x => shapedRight'.off_below (x := x) inRight shapedLeft shapedRight
      have same_other : after other = mem other := same other (.inl rfl) (off other fresh.2)
      have off_left (x : α) (member : x ∈ left'.entries) : x ∉ right'.entries :=
        fun inside => Multiset.disjoint_left.mp apart member inside
      have same_left : ∀ x ∈ left'.entries, after x = mem x :=
        fun x member => same x (.inr (.inl member)) (off x (off_left x member))
      have kept := shapedLeft'.frame distinctLeft same_left
      have under := underLeft.frame same_left
      have absent : entry ∉ left'.entries := fun inside => off_left entry inside inRight
      rw [remove_right other_ne absent]
      by_cases top : right'.root = some entry
      · have tree := shapedRight'.at_top top shapedLeft shapedRight
        have child : (after other).left ≠ some entry := by
          rw [same_other, shapedLeft'.root]
          exact fun same => absent (mem_of_root same)
        have own := replaceChild_right after (merge (less comp) left right).root child
        have merged_distinct : (merge (less comp) left right).entries.Nodup := by
          rw [tree] at distinctRight
          rw [content]
          exact (Multiset.nodup_cons.mp distinctRight).2
        have fresh_merged : other ∉ (merge (less comp) left right).entries := content ▸ off other fresh.2
        rw [underRight entry top] at parent
        have replaced : right'.remove (less comp) entry = merge (less comp) left right := by
          rw [tree, Heap.remove, if_pos rfl]
        refine ⟨other, .inl rfl, underRight entry top, here, ?_, ?_⟩
        · rw [own]
          refine ⟨under.frame (frame _ _ _ fresh.1), ?_⟩
          rw [same_other]
          exact kept.frame distinctLeft (frame _ _ _ fresh.1)
        · rw [own, replaced]
          exact ⟨parent.frame (frame _ _ _ fresh_merged), merged.frame merged_distinct (frame _ _ _ fresh_merged)⟩
      · obtain ⟨p, inside, parent_eq, shaped⟩ :=
          ihRight shapedRight' distinctRight inRight top fun x member => same x (.inr (.inr member))
        have other_ne_p : other ≠ p := by
          rintro rfl
          exact fresh.2 inside
        have other_kept : replaceChild after p entry (merge (less comp) left right).root other = mem other := by
          rw [replaceChild_other after _ other_ne_p, same_other]
        have away : p ∉ left'.entries := fun member => off_left p member inside
        refine ⟨p, .inr (.inr inside), parent_eq, here, ⟨under.frame (frame _ _ _ away), ?_⟩, fun c top' => ?_, ?_⟩
        · rw [other_kept]
          exact kept.frame distinctLeft (frame _ _ _ away)
        · rw [remove_root top] at top'
          rw [replaceChild_parent, same c (.inr (.inr (mem_of_root top')))
            (shapedRight'.root_off_below distinctRight inRight top shapedLeft shapedRight top')]
          exact underRight c top'
        · rw [other_kept]
          exact shaped

/-- The entry goes, and nothing outside the tree changes. -/
theorem remove_returns (comp : α → α → Int) (turns : Nat) (shaped : Shaped mem a heap) (top : Under mem none heap)
    (distinct : heap.entries.Nodup) (member : entry ∈ heap.entries) (enough : heap.entries.card < turns) :
    ∃ after, skewHeapRemove comp turns mem a entry = some ((heap.remove (less comp) entry).root, after) ∧
      Shaped after (heap.remove (less comp) entry).root (heap.remove (less comp) entry) ∧
      Under after none (heap.remove (less comp) entry) ∧ ∀ x ∉ heap.entries, after x = mem x := by
  obtain ⟨left, right, shapedLeft, shapedRight, within⟩ := shaped.exists_below member
  have below_distinct : (left.entries + right.entries).Nodup :=
    (Multiset.nodup_cons.mp (Multiset.nodup_of_le within distinct)).2
  have few : (left.entries + right.entries).card < turns := by
    have count := Multiset.card_le_card within
    rw [Multiset.card_add, Multiset.card_singleton] at count
    omega
  obtain ⟨merged, ran, done⟩ := merge_returns comp turns shapedLeft shapedRight below_distinct few
  have content : (merge (less comp) left right).entries = _ := merge_entries _ _
  have merged_distinct : (merge (less comp) left right).entries.Nodup := content ▸ below_distinct
  have placed := done.shaped.setParent merged_distinct (mem entry).parent
  have off (x : α) (outside : x ∉ left.entries + right.entries) :
      setParent merged (merge (less comp) left right).root (mem entry).parent x = mem x := by
    rw [setParent_other _ _ fun same => outside (content ▸ mem_of_root same), done.other x outside]
  by_cases atTop : heap.root = some entry
  · obtain rfl := shaped.at_top atTop shapedLeft shapedRight
    have orphan : (mem entry).parent = none := top entry rfl
    have removed : Heap.remove (less comp) entry (.node entry left right) = merge (less comp) left right := by
      rw [Heap.remove, if_pos rfl]
    rw [orphan] at placed off
    rw [removed]
    refine ⟨_, ?_, placed.1, placed.2, fun x outside => off x fun inside => outside ?_⟩
    · rw [skewHeapRemove, ran, orphan]
      rfl
    · exact Multiset.mem_of_le within (Multiset.mem_add.mpr (.inr inside))
  · have same (x : α) (_ : x ∈ heap.entries) := off x
    obtain ⟨p, inside, parent, spliced⟩ :=
      splice_shaped shaped distinct member atTop shapedLeft shapedRight placed.1 placed.2 same
    rw [remove_root atTop]
    refine ⟨_, ?_, shaped.root ▸ spliced, fun c top' => ?_, fun x outside => ?_⟩
    · rw [skewHeapRemove, ran, parent, shaped.root]
      rfl
    · rw [remove_root atTop] at top'
      rw [parent, replaceChild_parent, ← parent,
        off c (shaped.root_off_below distinct member atTop shapedLeft shapedRight top')]
      exact top c top'
    · have other_ne : x ≠ p := by
        rintro rfl
        exact outside inside
      rw [parent, replaceChild_other _ _ other_ne, ← parent]
      exact off x fun below => outside (Multiset.mem_of_le within (Multiset.mem_add.mpr (.inr below)))

/-! ## Order -/

/-- The comparison is that of a total preorder: -1 tells that the first is less. -/
structure Compares (comp : α → α → Int) : Prop where
  total : ∀ a b, comp a b ≠ -1 ∨ comp b a ≠ -1
  trans : ∀ a b c, comp b a ≠ -1 → comp c b ≠ -1 → comp c a ≠ -1

omit [DecidableEq α] in
/-- Entries that compare as equal have the same key. -/
theorem Compares.exists_key (compares : Compares comp) :
    ∃ (β : Type) (_ : LinearOrder β) (key : α → β), ∀ a b, comp a b = -1 ↔ key a < key b := by
  classical
  let order : Preorder α := {
    le a b := comp b a ≠ -1
    le_refl a := (compares.total a a).elim id id
    le_trans := compares.trans }
  have : Std.Total (α := α) (· ≤ ·) := ⟨fun a b => (compares.total b a)⟩
  refine ⟨Antisymmetrization α (· ≤ ·), inferInstance, toAntisymmetrization (· ≤ ·), fun a b => ?_⟩
  rw [toAntisymmetrization_lt_toAntisymmetrization_iff, lt_iff_le_not_ge]
  change comp a b = -1 ↔ comp b a ≠ -1 ∧ ¬ comp a b ≠ -1
  rw [not_not]
  exact ⟨fun lower => ⟨(compares.total a b).resolve_left (not_not.mpr lower), lower⟩, fun both => both.2⟩

/-- No entry below another is less than it. -/
def InOrder (comp : α → α → Int) : Heap α → Prop
  | .leaf => True
  | .node entry left right =>
    (∀ x ∈ left.entries + right.entries, comp x entry ≠ -1) ∧ InOrder comp left ∧ InOrder comp right

omit [DecidableEq α] in
theorem inOrder_iff {β : Type} [LinearOrder β] {key : α → β} (agrees : ∀ a b, comp a b = -1 ↔ key a < key b) (heap : Heap α) :
    InOrder comp heap ↔ Ordered key heap := by
  induction heap with
  | leaf => exact Iff.rfl
  | node entry left right ihLeft ihRight => simp only [InOrder, Ordered, ihLeft, ihRight, ne_eq, agrees, not_lt]

omit [DecidableEq α] in
theorem InOrder.congr {comp' : α → α → Int} (order : InOrder comp heap)
    (agrees : ∀ a ∈ heap.entries, ∀ b ∈ heap.entries, (comp' a b = -1 ↔ comp a b = -1)) : InOrder comp' heap := by
  induction heap with
  | leaf => trivial
  | node entry left right ihLeft ihRight =>
    refine ⟨fun x member lower => ?_, ?_, ?_⟩
    · have inside : x ∈ (node entry left right).entries := Multiset.mem_add.mpr (.inr member)
      exact order.1 x member ((agrees x inside entry (by simp [entries])).mp lower)
    · exact ihLeft order.2.1 fun a inA b inB => agrees a (by simp [entries, inA]) b (by simp [entries, inB])
    · exact ihRight order.2.2 fun a inA b inB => agrees a (by simp [entries, inA]) b (by simp [entries, inB])

omit [DecidableEq α] in
theorem InOrder.merge (compares : Compares comp) (order : InOrder comp heap) (order' : InOrder comp heap') :
    InOrder comp (Heap.merge (less comp) heap heap') := by
  obtain ⟨β, _, key, agrees⟩ := compares.exists_key
  rw [inOrder_iff agrees] at order order' ⊢
  apply order.merge order'
  intro a _ b _
  rw [less, decide_eq_true_eq, agrees]

theorem InOrder.remove (compares : Compares comp) (order : InOrder comp heap) (distinct : heap.entries.Nodup) :
    InOrder comp (heap.remove (less comp) entry) := by
  obtain ⟨β, _, key, agrees⟩ := compares.exists_key
  rw [inOrder_iff agrees] at order ⊢
  apply order.remove distinct
  intro a _ b _
  rw [less, decide_eq_true_eq, agrees]

omit [DecidableEq α] in
theorem InOrder.root_le {r : α} (compares : Compares comp) (order : InOrder comp heap) (top : heap.root = some r)
    (member : x ∈ heap.entries) : comp x r ≠ -1 := by
  obtain ⟨β, _, key, agrees⟩ := compares.exists_key
  rw [inOrder_iff agrees] at order
  rw [ne_eq, agrees, not_lt]
  exact order.root_le top member

/-! ## Heaps -/

/-- The pointer leads to a tree of these entries in order, without a parent. -/
def Holds (mem : Memory α) (comp : α → α → Int) (root : Option α) (nodes : Finset α) : Prop :=
  ∃ tree, Shaped mem root tree ∧ Under mem none tree ∧ tree.entries = nodes.val ∧ InOrder comp tree

variable {nodes nodes' : Finset α} {root root' : Option α} {turns : Nat}

omit [DecidableEq α] in
theorem Holds.frame (holds : Holds mem comp root nodes) (same : ∀ x ∈ nodes, after x = mem x) :
    Holds after comp root nodes := by
  obtain ⟨tree, shaped, top, content, order⟩ := holds
  have same (x : α) (member : x ∈ tree.entries) : after x = mem x := same x (by rwa [content] at member)
  have distinct : tree.entries.Nodup := content ▸ nodes.nodup
  exact ⟨tree, shaped.frame distinct same, top.frame same, content, order⟩

omit [DecidableEq α] in
theorem Holds.rekey {comp' : α → α → Int} (holds : Holds mem comp root nodes)
    (agrees : ∀ a ∈ nodes, ∀ b ∈ nodes, (comp' a b = -1 ↔ comp a b = -1)) : Holds mem comp' root nodes := by
  obtain ⟨tree, shaped, top, content, order⟩ := holds
  refine ⟨tree, shaped, top, content, order.congr fun a inA b inB => ?_⟩
  rw [content] at inA inB
  exact agrees a inA b inB

theorem Holds.merge (compares : Compares comp) (holds : Holds mem comp root nodes) (holds' : Holds mem comp root' nodes')
    (apart : Disjoint nodes nodes') (enough : (nodes ∪ nodes').card < turns) :
    ∃ result, skewHeapMerge comp turns mem root root' = some result ∧
      Holds result.2 comp result.1 (nodes ∪ nodes') ∧ ∀ x ∉ nodes ∪ nodes', result.2 x = mem x := by
  obtain ⟨tree, shaped, top, content, order⟩ := holds
  obtain ⟨tree', shaped', top', content', order'⟩ := holds'
  have both : tree.entries + tree'.entries = (nodes ∪ nodes').val := by
    rw [content, content', ← Finset.disjUnion_eq_union nodes nodes' apart]
    rfl
  obtain ⟨after, ran, done⟩ := merge_returns comp turns shaped shaped' (both ▸ (nodes ∪ nodes').nodup) (both ▸ enough)
  refine ⟨_, ran, ⟨_, done.shaped, fun c atTop => ?_, by rw [merge_entries, both], order.merge compares order'⟩, fun x outside => ?_⟩
  · rw [done.top c atTop]
    rcases merge_root comp tree tree' with same | same
    · exact top c (same ▸ atTop)
    · exact top' c (same ▸ atTop)
  · exact done.other x (both ▸ outside)

theorem Holds.insert (compares : Compares comp) (holds : Holds mem comp root nodes) (fresh : entry ∉ nodes)
    (enough : (insert entry nodes).card < turns) :
    ∃ result, skewHeapInsert comp turns mem root entry = some result ∧
      Holds result.2 comp result.1 (insert entry nodes) ∧ ∀ x ∉ insert entry nodes, result.2 x = mem x := by
  have off (x : α) (other : x ≠ entry) : skewHeapInit mem entry x = mem x := by simp [skewHeapInit, other]
  have alone : Holds (skewHeapInit mem entry) comp (some entry) {entry} := by
    refine ⟨.node entry .leaf .leaf, ⟨rfl, ⟨nofun, ?_⟩, nofun, ?_⟩, ?_, rfl, by simp [entries], trivial, trivial⟩
    · simp [Shaped, skewHeapInit]
    · simp [Shaped, skewHeapInit]
    · rintro _ ⟨⟩
      simp [skewHeapInit]
  have union : nodes ∪ {entry} = Insert.insert entry nodes := by
    rw [Finset.union_comm]
    rfl
  have kept := holds.frame fun x member => off x fun same => fresh (same ▸ member)
  obtain ⟨result, ran, held, same⟩ := kept.merge compares alone (by simpa using fresh) (union ▸ enough)
  rw [union] at held same
  refine ⟨result, ran, held, fun x outside => ?_⟩
  rw [same x outside, off x fun same => outside (same ▸ Finset.mem_insert_self x nodes)]

theorem Holds.remove (compares : Compares comp) (holds : Holds mem comp root nodes) (member : entry ∈ nodes)
    (enough : nodes.card < turns) :
    ∃ result, skewHeapRemove comp turns mem root entry = some result ∧
      Holds result.2 comp result.1 (nodes.erase entry) ∧ ∀ x ∉ nodes, result.2 x = mem x := by
  obtain ⟨tree, shaped, top, content, order⟩ := holds
  have distinct : tree.entries.Nodup := content ▸ nodes.nodup
  obtain ⟨after, ran, shaped', top', same⟩ :=
    remove_returns comp turns shaped top distinct (by rw [content]; exact member) (content ▸ enough)
  refine ⟨_, ran, ⟨_, shaped', top', ?_, order.remove compares distinct⟩, fun x outside => same x (content ▸ outside)⟩
  rw [remove_entries distinct, content, Finset.erase_val]

/-- How the root compares does not matter to its removal. -/
theorem Holds.removeRaised {comp' : α → α → Int} {r : α} (compares : Compares comp') (holds : Holds mem comp (some r) nodes)
    (agrees : ∀ a ∈ nodes, a ≠ r → ∀ b ∈ nodes, b ≠ r → (comp' a b = -1 ↔ comp a b = -1)) (enough : nodes.card < turns) :
    ∃ result, skewHeapRemove comp' turns mem (some r) r = some result ∧
      Holds result.2 comp' result.1 (nodes.erase r) ∧ ∀ x ∉ nodes, result.2 x = mem x := by
  obtain ⟨tree, shaped, top, content, order⟩ := holds
  have distinct : tree.entries.Nodup := content ▸ nodes.nodup
  have atTop := shaped.root.symm
  obtain ⟨after, ran, shaped', top', same⟩ :=
    remove_returns comp' turns shaped top distinct (mem_of_root atTop) (content ▸ enough)
  refine ⟨_, ran, ⟨_, shaped', top', ?_, ?_⟩, fun x outside => same x (content ▸ outside)⟩
  · rw [remove_entries distinct, content, Finset.erase_val]
  · cases tree with
    | leaf => cases atTop
    | node other left right =>
      cases atTop
      have fresh := (Multiset.nodup_cons.mp distinct).1
      have inside (x : α) (member : x ∈ left.entries + right.entries) : x ∈ nodes ∧ x ≠ r := by
        refine ⟨?_, fun same => fresh (same ▸ member)⟩
        rw [← Finset.mem_val, ← content]
        exact Multiset.mem_add.mpr (.inr member)
      have agrees (a : α) (inA : a ∈ left.entries + right.entries) (b : α) (inB : b ∈ left.entries + right.entries) :=
        agrees a (inside a inA).1 (inside a inA).2 b (inside b inB).1 (inside b inB).2
      rw [Heap.remove, if_pos rfl]
      apply InOrder.merge compares
      · exact order.2.1.congr fun a inA b inB => agrees a (by simp [inA]) b (by simp [inB])
      · exact order.2.2.congr fun a inA b inB => agrees a (by simp [inA]) b (by simp [inB])

omit [DecidableEq α] in
theorem Shaped.parent (shaped : Shaped mem a heap) (member : x ∈ heap.entries) (below : heap.root ≠ some x) :
    ∃ p ∈ heap.entries, (mem x).parent = some p ∧ ((mem p).left = some x ∨ (mem p).right = some x) := by
  induction heap generalizing a with
  | leaf => exact absurd member (Multiset.notMem_zero x)
  | node entry left right ihLeft ihRight =>
    obtain ⟨-, ⟨underLeft, shapedLeft⟩, underRight, shapedRight⟩ := shaped
    simp only [entries, Multiset.mem_add, Multiset.mem_singleton] at member ⊢
    rcases member with rfl | inLeft | inRight
    · exact absurd rfl below
    · by_cases top : left.root = some x
      · exact ⟨entry, .inl rfl, underLeft x top, .inl (shapedLeft.root.trans top)⟩
      · obtain ⟨p, inside, points⟩ := ihLeft shapedLeft inLeft top
        exact ⟨p, .inr (.inl inside), points⟩
    · by_cases top : right.root = some x
      · exact ⟨entry, .inl rfl, underRight x top, .inr (shapedRight.root.trans top)⟩
      · obtain ⟨p, inside, points⟩ := ihRight shapedRight inRight top
        exact ⟨p, .inr (.inr inside), points⟩

omit [DecidableEq α] in
theorem Shaped.child {c : α} (shaped : Shaped mem a heap) (order : InOrder comp heap) (member : x ∈ heap.entries)
    (points : (mem x).left = some c ∨ (mem x).right = some c) :
    c ∈ heap.entries ∧ (mem c).parent = some x ∧ comp c x ≠ -1 := by
  induction heap generalizing a with
  | leaf => exact absurd member (Multiset.notMem_zero x)
  | node entry left right ihLeft ihRight =>
    obtain ⟨-, ⟨underLeft, shapedLeft⟩, underRight, shapedRight⟩ := shaped
    obtain ⟨least, orderLeft, orderRight⟩ := order
    simp only [entries, Multiset.mem_add, Multiset.mem_singleton] at member least ⊢
    rcases member with rfl | inLeft | inRight
    · rcases points with points | points
      · have top : left.root = some c := shapedLeft.root.symm.trans points
        exact ⟨.inr (.inl (mem_of_root top)), underLeft c top, least c (.inl (mem_of_root top))⟩
      · have top : right.root = some c := shapedRight.root.symm.trans points
        exact ⟨.inr (.inr (mem_of_root top)), underRight c top, least c (.inr (mem_of_root top))⟩
    · obtain ⟨inside, same⟩ := ihLeft shapedLeft orderLeft inLeft
      exact ⟨.inr (.inl inside), same⟩
    · obtain ⟨inside, same⟩ := ihRight shapedRight orderRight inRight
      exact ⟨.inr (.inr inside), same⟩

/-- A heap of exactly these nodes, as its pointers tell it. -/
structure Valid (mem : Memory α) (comp : α → α → Int) (root : Option α) (nodes : Finset α) : Prop where
  /-- Following the children from the root meets each node once and nothing else. -/
  tree : ∃ tree, Shaped mem root tree ∧ tree.entries = nodes.val
  parent : ∀ x ∈ nodes, root ≠ some x →
    ∃ p ∈ nodes, (mem x).parent = some p ∧ ((mem p).left = some x ∨ (mem p).right = some x)
  child : ∀ x ∈ nodes, ∀ c, (mem x).left = some c ∨ (mem x).right = some c →
    c ∈ nodes ∧ (mem c).parent = some x ∧ comp c x ≠ -1
  top : ∀ r, root = some r → r ∈ nodes ∧ (mem r).parent = none ∧ ∀ x ∈ nodes, comp x r ≠ -1
  empty : root = none ↔ nodes = ∅

omit [DecidableEq α] in
theorem Holds.valid (compares : Compares comp) (holds : Holds mem comp root nodes) : Valid mem comp root nodes := by
  obtain ⟨tree, shaped, top, content, order⟩ := holds
  have member (x : α) : x ∈ tree.entries ↔ x ∈ nodes := by rw [content, Finset.mem_val]
  refine ⟨⟨tree, shaped, content⟩, fun x inside below => ?_, fun x inside c points => ?_, fun r here => ?_, ?_⟩
  · rw [shaped.root] at below
    simpa only [member] using shaped.parent ((member x).mpr inside) below
  · simpa only [member] using shaped.child order ((member x).mpr inside) points
  · rw [shaped.root] at here
    exact ⟨(member r).mp (mem_of_root here), top r here, fun x inside => order.root_le compares here ((member x).mpr inside)⟩
  · rw [shaped.root, root_none, content, Finset.val_eq_zero]

/-! ## Runs -/

variable {η : Type} [DecidableEq η]

/-- A program, and the nodes that its operations have left in each heap. -/
structure Tracked (η α : Type) where
  program : Program η α
  nodes : η → Finset α

def contents (state : Tracked η α) : Event η α → η → Finset α
  | .insert heap entry => Function.update state.nodes heap (insert entry (state.nodes heap))
  | .merge heap other =>
    Function.update (Function.update state.nodes heap (state.nodes heap ∪ state.nodes other)) other ∅
  | .remove heap entry => Function.update state.nodes heap ((state.nodes heap).erase entry)
  | .rekey _ => state.nodes
  | .removeRaised heap _ =>
    match state.program.root heap with
    | some r => Function.update state.nodes heap ((state.nodes heap).erase r)
    | none => state.nodes

def track (turns : Nat) (state : Tracked η α) (event : Event η α) : Option (Tracked η α) :=
  (step turns state.program event).map fun program => ⟨program, contents state event⟩

def Tracked.fresh (mem : Memory α) (comp : α → α → Int) : Tracked η α := ⟨⟨mem, fun _ => none, comp⟩, fun _ => ∅⟩

/-- The operation leaves in every heap the nodes that it should, and the heap valid. -/
def Correct (state : Tracked η α) (event : Event η α) (after : Tracked η α) : Prop :=
  after.nodes = contents state event ∧
    ∀ heap, Valid after.program.mem after.program.comp (after.program.root heap) (after.nodes heap)

/-- Only an entry of no heap is inserted and only an entry of the heap removed. A new
key changes no order in a heap, that of a raised root apart. -/
def Legal (state : Tracked η α) : Event η α → Prop
  | .insert _ entry => ∀ heap, entry ∉ state.nodes heap
  | .merge heap other => heap ≠ other
  | .remove heap entry => entry ∈ state.nodes heap
  | .rekey comp => Compares comp ∧
    ∀ heap, ∀ a ∈ state.nodes heap, ∀ b ∈ state.nodes heap, (comp a b = -1 ↔ state.program.comp a b = -1)
  | .removeRaised heap comp => Compares comp ∧ ∃ r, state.program.root heap = some r ∧
    ∀ heap, ∀ a ∈ state.nodes heap, a ≠ r → ∀ b ∈ state.nodes heap, b ≠ r →
      (comp a b = -1 ↔ state.program.comp a b = -1)

/-- The heaps share no node and have at most `k` of them together. -/
structure Sound (k : Nat) (state : Tracked η α) : Prop where
  compares : Compares state.program.comp
  holds : ∀ heap, Holds state.program.mem state.program.comp (state.program.root heap) (state.nodes heap)
  apart : Pairwise fun heap other => Disjoint (state.nodes heap) (state.nodes other)
  few : ∃ all : Finset α, (∀ heap, state.nodes heap ⊆ all) ∧ all.card ≤ k

variable {state : Tracked η α} {k k' : Nat}

omit [DecidableEq α] [DecidableEq η] in
theorem Sound.fresh (mem : Memory α) (compares : Compares comp) : Sound 0 (Tracked.fresh mem comp : Tracked η α) := by
  refine ⟨compares, fun _ => ⟨.leaf, rfl, nofun, rfl, trivial⟩, fun _ _ _ => ?_, ∅, fun _ => Finset.Subset.refl ∅, le_rfl⟩
  exact Finset.disjoint_empty_left ∅

omit [DecidableEq α] [DecidableEq η] in
/-- One heap changes, within the entries touched; each other heap is emptied or has none of them. -/
theorem Sound.replace (sound : Sound k state) (heap₀ : η) (program : Program η α) {nodes' : η → Finset α} {touched : Finset α}
    (compares : Compares program.comp) (outside : ∀ x ∉ touched, program.mem x = state.program.mem x)
    (held : Holds program.mem program.comp (program.root heap₀) (nodes' heap₀)) (within : nodes' heap₀ ⊆ touched)
    (rest : ∀ heap ≠ heap₀, (program.root heap = none ∧ nodes' heap = ∅) ∨
      (program.root heap = state.program.root heap ∧ nodes' heap = state.nodes heap ∧
        Disjoint (state.nodes heap) touched ∧
        ∀ a ∈ state.nodes heap, ∀ b ∈ state.nodes heap, (program.comp a b = -1 ↔ state.program.comp a b = -1)))
    (few : ∃ all : Finset α, (∀ heap, nodes' heap ⊆ all) ∧ all.card ≤ k') : Sound k' ⟨program, nodes'⟩ := by
  have away {heap : η} (other : heap ≠ heap₀) : Disjoint (nodes' heap) touched := by
    rcases rest heap other with ⟨-, gone⟩ | ⟨-, same, apart, -⟩
    · exact gone ▸ Finset.disjoint_empty_left touched
    · exact same ▸ apart
  refine ⟨compares, fun heap => ?_, fun heap heap' different => ?_, few⟩
  · change Holds program.mem program.comp (program.root heap) (nodes' heap)
    by_cases here : heap = heap₀
    · exact here ▸ held
    · rcases rest heap here with ⟨null, gone⟩ | ⟨root, same, apart, agrees⟩
      · rw [null, gone]
        exact ⟨.leaf, rfl, nofun, rfl, trivial⟩
      · rw [root, same]
        exact ((sound.holds heap).frame fun x member => outside x (Finset.disjoint_left.mp apart member)).rekey agrees
  · change Disjoint (nodes' heap) (nodes' heap')
    by_cases here : heap = heap₀
    · have there : heap' ≠ heap₀ := fun same => different (here.trans same.symm)
      exact ((away there).mono_right (here ▸ within)).symm
    · by_cases there : heap' = heap₀
      · exact (away here).mono_right (there ▸ within)
      · rcases rest heap here with ⟨-, gone⟩ | ⟨-, same, -⟩
        · exact gone ▸ Finset.disjoint_empty_left _
        · rcases rest heap' there with ⟨-, gone⟩ | ⟨-, same', -⟩
          · exact gone ▸ Finset.disjoint_empty_right _
          · rw [same, same']
            exact sound.apart different

/-- An entry leaves its heap, and the comparison changes on it alone. -/
theorem Sound.leave (sound : Sound k state) (heap₀ : η) {result : Option α × Memory α} (compares : Compares comp)
    (held : Holds result.2 comp result.1 ((state.nodes heap₀).erase entry))
    (outside : ∀ x ∉ state.nodes heap₀, result.2 x = state.program.mem x)
    (agrees : ∀ heap ≠ heap₀, ∀ a ∈ state.nodes heap, ∀ b ∈ state.nodes heap, (comp a b = -1 ↔ state.program.comp a b = -1)) :
    Sound k ⟨{ state.program.put heap₀ result with comp },
      Function.update state.nodes heap₀ ((state.nodes heap₀).erase entry)⟩ := by
  obtain ⟨all, covers, count⟩ := sound.few
  apply sound.replace heap₀ _ compares outside
  · simpa [Program.put] using held
  · simpa using Finset.erase_subset entry (state.nodes heap₀)
  · intro heap other
    exact .inr ⟨by simp [Program.put, other], by simp [other], sound.apart other, agrees heap other⟩
  · refine ⟨all, fun heap => ?_, count⟩
    by_cases here : heap = heap₀
    · subst here
      simpa using (Finset.erase_subset entry _).trans (covers heap)
    · simpa [here] using covers heap

theorem track_sound (sound : Sound k state) (event : Event η α) (legal : Legal state event) (enough : k + 1 < turns) :
    ∃ after, track turns state event = some after ∧ after.nodes = contents state event ∧ Sound (k + 1) after := by
  obtain ⟨all, covers, count⟩ := sound.few
  have later {after : Tracked η α} (sound : Sound k after) : Sound (k + 1) after :=
    { sound with few := sound.few.imp fun _ known => ⟨known.1, known.2.trans k.le_succ⟩ }
  cases event with
  | insert heap entry =>
    have few : (insert entry all).card ≤ k + 1 := (Finset.card_insert_le entry all).trans (Nat.succ_le_succ count)
    have fits := Finset.card_le_card (Finset.insert_subset_insert entry (covers heap))
    obtain ⟨result, ran, held, outside⟩ :=
      (sound.holds heap).insert sound.compares (legal heap) ((fits.trans few).trans_lt enough)
    refine ⟨⟨_, contents state (.insert heap entry)⟩, by rw [track, step, ran]; rfl, rfl, ?_⟩
    apply sound.replace heap (state.program.put heap result) sound.compares outside
    · simpa [Program.put, contents] using held
    · simp [contents]
    · intro other different
      refine .inr ⟨by simp [Program.put, different], by simp [contents, different], ?_, fun _ _ _ _ => Iff.rfl⟩
      exact Finset.disjoint_insert_right.mpr ⟨legal other, sound.apart different⟩
    · refine ⟨insert entry all, fun other => ?_, few⟩
      by_cases here : other = heap
      · subst here
        simpa [contents] using Finset.insert_subset_insert entry (covers other)
      · simpa [contents, here] using (covers other).trans (Finset.subset_insert entry all)
  | merge heap other =>
    have legal : heap ≠ other := legal
    have fits := Finset.card_le_card (Finset.union_subset (covers heap) (covers other))
    obtain ⟨result, ran, held, outside⟩ := (sound.holds heap).merge sound.compares (sound.holds other) (sound.apart legal)
      (((fits.trans count).trans k.le_succ).trans_lt enough)
    let program : Program η α :=
      { state.program.put heap result with root := Function.update (Function.update state.program.root heap result.1) other none }
    refine ⟨⟨program, contents state (.merge heap other)⟩, by rw [track, step, ran]; rfl, rfl, later ?_⟩
    apply sound.replace heap program sound.compares outside
    · simpa [program, Program.put, contents, legal] using held
    · simp [contents, legal]
    · intro third different
      by_cases here : third = other
      · exact .inl ⟨by simp [program, here], by simp [contents, here]⟩
      · refine .inr ⟨by simp [program, different, here], by simp [contents, different, here], ?_, fun _ _ _ _ => Iff.rfl⟩
        exact Finset.disjoint_union_right.mpr ⟨sound.apart different, sound.apart here⟩
    · refine ⟨all, fun third => ?_, count⟩
      by_cases here : third = other
      · simp [contents, here]
      · by_cases same : third = heap
        · subst same
          simpa [contents, here] using Finset.union_subset (covers third) (covers other)
        · simpa [contents, here, same] using covers third
  | remove heap entry =>
    obtain ⟨result, ran, held, outside⟩ := (sound.holds heap).remove sound.compares legal
      ((((Finset.card_le_card (covers heap)).trans count).trans k.le_succ).trans_lt enough)
    refine ⟨_, by rw [track, step, ran]; rfl, rfl, later ?_⟩
    exact sound.leave heap sound.compares held outside fun _ _ _ _ _ _ => Iff.rfl
  | rekey comp =>
    refine ⟨_, rfl, rfl, later { sound with compares := legal.1, holds := fun heap => ?_ }⟩
    exact (sound.holds heap).rekey (legal.2 heap)
  | removeRaised heap comp =>
    obtain ⟨compares, r, top, agrees⟩ := legal
    have held := sound.holds heap
    rw [top] at held
    have root_inside : r ∈ state.nodes heap := ((held.valid sound.compares).top r rfl).1
    obtain ⟨result, ran, held, outside⟩ := held.removeRaised compares (agrees heap)
      ((((Finset.card_le_card (covers heap)).trans count).trans k.le_succ).trans_lt enough)
    have contents_eq : contents state (.removeRaised heap comp) =
        Function.update state.nodes heap ((state.nodes heap).erase r) := by rw [contents, top]
    refine ⟨⟨{ state.program.put heap result with comp }, contents state (.removeRaised heap comp)⟩, ?_, rfl, ?_⟩
    · have stepped : step turns state.program (.removeRaised heap comp) = some { state.program.put heap result with comp } := by
        rw [step, top]
        change (skewHeapRemove comp turns state.program.mem (some r) r).bind _ = _
        rw [ran]
        rfl
      rw [track, stepped]
      rfl
    · rw [contents_eq]
      apply later (sound.leave heap compares held outside ?_)
      intro other different a inA b inB
      have apart (x : α) (inside : x ∈ state.nodes other) : x ≠ r := by
        rintro rfl
        exact Finset.disjoint_left.mp (sound.apart different) inside root_inside
      exact agrees other a inA (apart a inA) b inB (apart b inB)

theorem run_correct {events : List (Event η α)} (sound : Sound k state) (enough : k + events.length < turns)
    (legal : Along (track turns) Legal state events) : Safe (track turns) Correct state events := by
  induction events generalizing k state with
  | nil => trivial
  | cons event events ih =>
    rw [List.length_cons] at enough
    obtain ⟨after, ran, content, sound'⟩ := track_sound sound event legal.1 (Nat.lt_of_le_of_lt (by omega) enough)
    refine ⟨after, ran, ⟨content, fun heap => (sound'.holds heap).valid sound'.compares⟩, ?_⟩
    exact ih sound' (by omega) (legal.2 after ran)

/-- Every run of operations on skew heaps that start empty: no operation meets a null
pointer or runs out of calls, and each leaves in every heap exactly the nodes that it
should, as a tree in order whose pointers are right. -/
theorem skew_heaps_correct (mem : Memory α) (compares : Compares comp) (events : List (Event η α))
    (enough : events.length < turns) (legal : Along (track turns) Legal (Tracked.fresh mem comp) events) :
    Safe (track turns) Correct (Tracked.fresh mem comp) events :=
  run_correct (Sound.fresh mem compares) (by omega) legal

omit [DecidableEq α] in
theorem compares_of_key {β : Type} [LinearOrder β] (key : α → β) (agrees : ∀ a b, comp a b = -1 ↔ key a < key b) :
    Compares comp := by
  constructor
  · intro a b
    simp only [ne_eq, agrees, not_lt]
    exact le_total _ _
  · intro a b c
    simp only [ne_eq, agrees, not_lt]
    exact fun below above => below.trans above

/-- Two heaps are merged, and the least entry is removed when its key has become the largest. -/
theorem skew_heaps_correct_raised :
    Safe (track 7) Correct (Tracked.fresh (fun _ => ⟨none, none, none⟩) fun a b : Nat => if a < b then -1 else 1)
      [.insert false 3, .insert false 1, .insert true 2, .merge false true,
        .removeRaised false fun a b => if (if a = 1 then 9 else a) < (if b = 1 then 9 else b) then -1 else 1,
        .remove false 3] := by
  apply skew_heaps_correct _ (compares_of_key id fun a b => by simp)
  · decide
  · refine ⟨by unfold Legal; decide, fun _ ran => ?_⟩
    cases ran
    refine ⟨by unfold Legal; decide, fun _ ran => ?_⟩
    cases ran
    refine ⟨by unfold Legal; decide, fun _ ran => ?_⟩
    cases ran
    refine ⟨by unfold Legal; decide, fun _ ran => ?_⟩
    cases ran
    refine ⟨⟨compares_of_key (fun a => if a = 1 then 9 else a) fun a b => by simp, 1, rfl, by decide⟩, fun _ ran => ?_⟩
    cases ran
    exact ⟨by unfold Legal; decide, fun _ _ => trivial⟩

end Ucore.SkewHeapLinksProofs
