import Mathlib

/-! Doubly linked lists that end in null pointers at both sides, over an arbitrary node
type. Whoever holds the first node is not one of the nodes. The nodes of many chains share
one `next` and one `prev`, so each rule says what has to hold at the nodes of its own chain. -/
namespace Ucore.Chain

/-- `next` walks the nodes in order and `prev` walks them back. -/
structure IsChain {α : Type*} (next prev : α → Option α) (nodes : List α) : Prop where
  distinct : nodes.Nodup
  linked : ∀ before node after, nodes = before ++ node :: after → prev node = before.getLast? ∧ next node = after.head?

variable {α : Type*} {next prev next' prev' : α → Option α} {nodes before after : List α} {node : α}

theorem IsChain.nil : IsChain next prev [] := by
  refine ⟨List.nodup_nil, fun before node after split => ?_⟩
  simp at split

theorem IsChain.congr (chain : IsChain next prev nodes) (forwards : ∀ x ∈ nodes, next' x = next x) (backwards : ∀ x ∈ nodes, prev' x = prev x) :
    IsChain next' prev' nodes := by
  refine ⟨chain.distinct, fun before node after split => ?_⟩
  have inside : node ∈ nodes := by simp [split]
  rw [forwards node inside, backwards node inside]
  exact chain.linked before node after split

variable [DecidableEq α]

/-- A node is put in front of the others. -/
theorem IsChain.cons (chain : IsChain next prev nodes) (fresh : node ∉ nodes) (first : next' node = nodes.head?) (none : prev' node = none)
    (forwards : ∀ x ∈ nodes, next' x = next x)
    (backwards : ∀ x ∈ nodes, prev' x = if nodes.head? = some x then some node else prev x) : IsChain next' prev' (node :: nodes) := by
  refine ⟨List.nodup_cons.mpr ⟨fresh, chain.distinct⟩, fun before other after split => ?_⟩
  cases before with
  | nil =>
    cases split
    exact ⟨none, first⟩
  | cons head before =>
    obtain ⟨rfl, rfl⟩ := List.cons.inj split
    have linked := chain.linked before other after rfl
    refine ⟨?_, (forwards other (by simp)).trans linked.2⟩
    rw [backwards other (by simp)]
    cases before with
    | nil => simp
    | cons second before =>
      have apart : second ≠ other := by
        rintro rfl
        have distinct := chain.distinct
        simp at distinct
      simp [apart, linked.1]

/-- A node is taken out from between its neighbours. -/
theorem IsChain.remove (chain : IsChain next prev (before ++ node :: after))
    (forwards : ∀ x ∈ before ++ after, next' x = if before.getLast? = some x then after.head? else next x)
    (backwards : ∀ x ∈ before ++ after, prev' x = if after.head? = some x then before.getLast? else prev x) :
    IsChain next' prev' (before ++ after) := by
  have distinct := (List.nodup_middle.mp chain.distinct)
  obtain ⟨gone, distinct⟩ := List.nodup_cons.mp distinct
  have apart := (List.nodup_append.mp distinct).2.2
  refine ⟨distinct, fun left other right split => ?_⟩
  have inside : other ∈ before ++ after := by simp [split]
  rw [forwards other inside, backwards other inside]
  have place : (∃ middle, left = before ++ middle ∧ after = middle ++ other :: right) ∨
      ∃ middle, before = left ++ other :: middle ∧ right = middle ++ after := by
    rcases List.append_eq_append_iff.mp split with ⟨middle, rfl, rest⟩ | ⟨middle, rfl, rest⟩
    · exact .inl ⟨middle, rfl, rest⟩
    · cases middle with
      | nil => exact .inl ⟨[], by simp, by simpa using rest.symm⟩
      | cons head middle =>
        obtain ⟨rfl, rfl⟩ := List.cons.inj rest
        exact .inr ⟨middle, rfl, rfl⟩
  rcases place with ⟨middle, rfl, rfl⟩ | ⟨middle, rfl, rfl⟩
  · -- The node is behind the one that goes.
    have linked := chain.linked (before ++ node :: middle) other right (by simp)
    have notLast : before.getLast? ≠ some other := by
      intro last
      exact apart other (List.mem_of_getLast? last) other (by simp) rfl
    rw [if_neg notLast, linked.1, linked.2]
    refine ⟨?_, rfl⟩
    cases middle with
    | nil => simp
    | cons second middle =>
      have away : second ≠ other := by
        rintro rfl
        have twice := (List.nodup_append.mp distinct).2.1
        simp at twice
      simp [away]
  · -- It is in front of that one.
    have linked := chain.linked left other (middle ++ node :: after) (by simp)
    have notNext : after.head? ≠ some other := by
      intro next
      exact apart other (by simp) other (List.mem_of_head? next) rfl
    rw [if_neg notNext, linked.1, linked.2]
    refine ⟨rfl, ?_⟩
    cases last : middle.getLast? with
    | none =>
      have empty := List.getLast?_eq_none_iff.mp last
      subst empty
      simp
    | some final =>
      have away : final ≠ other := by
        rintro rfl
        have twice := (List.nodup_append.mp (List.nodup_append.mp distinct).1).2.1
        exact (List.nodup_cons.mp twice).1 (List.mem_of_getLast? last)
      have nonempty : middle ≠ [] := by
        rintro rfl
        simp at last
      obtain ⟨head, rest, rfl⟩ := List.exists_cons_of_ne_nil nonempty
      rw [List.getLast?_append, List.getLast?_cons_cons, last]
      simp [away]

end Ucore.Chain
