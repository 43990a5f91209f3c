import Ucore.Paging
import Ucore.Simulation

/-! The page tables over two page managers. Where one manager does what another does
until it loses its way, so do all calls on page tables over them: nothing but the
manager looks at the state of the manager. -/
namespace Ucore.Paging
open Call

variable {α β γ : Type} {gone : α → Prop} {seen : α → β}

/-- The same memory over the other manager. -/
def Memory.over (seen : α → β) (vm : Memory α) : Memory β := { vm with pmm := seen vm.pmm }

/-- A call on the memory that looks at the manager only through its calls. -/
abbrev Alike (gone : α → Prop) (seen : α → β) (raw : Call (Memory α) γ) (strict : Call (Memory β) γ) : Prop :=
  Follows (fun vm => gone vm.pmm) (Memory.over seen) raw strict

/-! ## Words -/

theorem setPageRef_alike (page : Nat) (ref : Int) : Alike gone seen (setPageRef page ref) (setPageRef page ref) :=
  .modify (fun _ gone => gone) fun _ => rfl

theorem pageRefInc_alike (page : Nat) : Alike gone seen (pageRefInc page) (pageRefInc page) :=
  .modify (fun _ gone => gone) fun _ => rfl

theorem pageRefDec_alike (page : Nat) : Alike gone seen (pageRefDec page) (pageRefDec page) :=
  .modify (fun _ gone => gone) fun _ => rfl

theorem load_alike (frame index : Nat) : Alike gone seen (load frame index) (load frame index) :=
  .gets fun _ => rfl

theorem store_alike (frame index word : Nat) : Alike gone seen (store frame index word) (store frame index word) :=
  .modify (fun _ gone => gone) fun _ => rfl

theorem clearPage_alike (frame : Nat) : Alike gone seen (clearPage frame) (clearPage frame) :=
  .modify (fun _ gone => gone) fun _ => rfl

theorem copyPage_alike (dst src : Nat) : Alike gone seen (copyPage dst src) (copyPage dst src) :=
  .modify (fun _ gone => gone) fun _ => rfl

theorem kaddr_alike (entry : Nat) : Alike gone seen (kaddr entry) (kaddr entry) :=
  .bind (.assert _) fun _ => .pure _

theorem pa2page_alike (entry : Nat) : Alike gone seen (pa2page entry) (pa2page entry) :=
  .bind (.assert _) fun _ => .pure _

theorem pte2page_alike (entry : Nat) : Alike gone seen (pte2page entry) (pte2page entry) :=
  .bind (.assert _) fun _ => pa2page_alike entry

theorem tableAt_alike (table index : Nat) : Alike gone seen (tableAt table index) (tableAt table index) :=
  .bind (load_alike table index) kaddr_alike

/-! ## Pages -/

/-- The calls of the managers themselves. -/
structure Managers [PmmManager α] [PmmManager β] (gone : α → Prop) (seen : α → β) : Prop where
  allocPages : Follows gone seen PmmManager.allocPages PmmManager.allocPages
  freePages : ∀ page, Follows gone seen (PmmManager.freePages page) (PmmManager.freePages page)

variable [PmmManager α] [PmmManager β] (managers : Managers gone seen)

omit [PmmManager α] [PmmManager β] in
theorem onPmm_alike {raw : Call α γ} {strict : Call β γ} (follows : Follows gone seen raw strict) :
    Alike gone seen (onPmm raw) (onPmm strict) :=
  .within follows (fun _ => Iff.rfl) (fun _ => rfl) (fun _ _ => Iff.rfl) fun _ _ => rfl

include managers

theorem allocPage_alike : Alike gone seen allocPage allocPage := by
  refine .bind (onPmm_alike managers.allocPages) fun found => ?_
  cases found with
  | some page => exact .pure _
  | none =>
    refine .bind (.gets fun _ => rfl) fun on => ?_
    split
    · exact .stop
    · exact .pure _

theorem freePage_alike (page : Nat) : Alike gone seen (freePage page) (freePage page) :=
  .bind (onPmm_alike (managers.freePages page)) fun _ => setPageRef_alike page 0

/-! ## Entries -/

theorem makeTable_alike (table index : Nat) (create : Bool) :
    Alike gone seen (makeTable table index create) (makeTable table index create) := by
  refine .bind (load_alike table index) fun entry => ?_
  split
  · exact .pure _
  split
  · exact .pure _
  refine .bind (allocPage_alike managers) fun found => ?_
  cases found with
  | none => exact .pure _
  | some page =>
    refine .bind (setPageRef_alike page 1) fun _ => .bind (clearPage_alike page) fun _ => ?_
    exact .bind (store_alike table index _) fun _ => .pure _

theorem getPte_alike (pgdir la : Nat) (create : Bool) : Alike gone seen (getPte pgdir la create) (getPte pgdir la create) := by
  refine .bind (makeTable_alike managers _ _ _) fun made => ?_
  split
  · exact .pure _
  refine .bind (tableAt_alike _ _) fun table => .bind (makeTable_alike managers _ _ _) fun made => ?_
  split
  · exact .pure _
  · exact .bind (tableAt_alike _ _) fun _ => .pure _

theorem pageRemovePte_alike (frame index : Nat) : Alike gone seen (pageRemovePte frame index) (pageRemovePte frame index) := by
  refine .bind (load_alike frame index) fun entry => .onlyIf _ (.bind (pte2page_alike entry) fun page => ?_)
  refine .bind (pageRefDec_alike page) fun _ => .bind (.gets fun _ => rfl) fun ref => ?_
  exact .bind (.onlyIf _ (freePage_alike managers page)) fun _ => store_alike frame index 0

theorem pageRemove_alike (pgdir la : Nat) : Alike gone seen (pageRemove pgdir la) (pageRemove pgdir la) := by
  refine .bind (getPte_alike managers pgdir la false) fun found => ?_
  cases found with
  | none => exact .pure _
  | some slot => exact pageRemovePte_alike managers slot.1 slot.2

theorem pageInsert_alike (pgdir page la perm : Nat) :
    Alike gone seen (pageInsert pgdir page la perm) (pageInsert pgdir page la perm) := by
  refine .bind (getPte_alike managers pgdir la true) fun found => ?_
  cases found with
  | none => exact .fail _
  | some slot =>
    refine .bind (pageRefInc_alike page) fun _ => .bind (load_alike _ _) fun entry => ?_
    refine .bind (.onlyIf _ (.bind (pte2page_alike entry) fun old => ?_)) fun _ => store_alike _ _ _
    split
    · exact pageRefDec_alike page
    · exact pageRemovePte_alike managers _ _

/-! ## Ranges -/

theorem unmapLoop_alike (pgdir finish more start : Nat) :
    Alike gone seen (unmapLoop pgdir finish more start) (unmapLoop pgdir finish more start) := by
  induction more generalizing start with
  | zero => exact .pure _
  | succ more ih =>
    refine .bind (getPte_alike managers pgdir start false) fun found => ?_
    cases found with
    | none =>
      dsimp only
      split
      · exact ih _
      · exact .pure _
    | some slot =>
      refine .bind (load_alike _ _) fun entry => .bind (.onlyIf _ (pageRemovePte_alike managers _ _)) fun _ => ?_
      split
      · exact ih _
      · exact .pure _

theorem unmapRange_alike (pgdir start finish : Nat) :
    Alike gone seen (unmapRange pgdir start finish) (unmapRange pgdir start finish) :=
  .bind (.assert _) fun _ => .bind (.assert _) fun _ => unmapLoop_alike managers _ _ _ _

theorem copyEntry_alike (target start entry : Nat) :
    Alike gone seen (copyEntry target start entry) (copyEntry target start entry) := by
  refine .bind (getPte_alike managers target start true) fun found => ?_
  cases found with
  | none => exact .fail _
  | some slot =>
    refine .bind (pte2page_alike entry) fun page => .bind (allocPage_alike managers) fun npage => ?_
    cases npage with
    | none => exact .stop
    | some npage =>
      refine .bind (copyPage_alike npage page) fun _ => .bind (.attempt (pageInsert_alike managers _ _ _ _)) fun outcome => ?_
      cases outcome with
      | ok _ => exact .pure _
      | error _ => exact .stop

theorem copyLoop_alike (target source finish more start : Nat) :
    Alike gone seen (copyLoop target source finish more start) (copyLoop target source finish more start) := by
  induction more generalizing start with
  | zero => exact .pure _
  | succ more ih =>
    refine .bind (getPte_alike managers source start false) fun found => ?_
    cases found with
    | none =>
      dsimp only
      split
      · exact ih _
      · exact .pure _
    | some slot =>
      refine .bind (load_alike _ _) fun entry => .bind (.onlyIf _ (copyEntry_alike managers _ _ _)) fun _ => ?_
      split
      · exact ih _
      · exact .pure _

theorem copyRange_alike (target source start finish : Nat) :
    Alike gone seen (copyRange target source start finish) (copyRange target source start finish) :=
  .bind (.assert _) fun _ => .bind (.assert _) fun _ => copyLoop_alike managers _ _ _ _ _

end Ucore.Paging
