import Ucore.Ensures
import Ucore.Paging

/-! What the page tables ask of a page manager, whatever its state is: a page it
gives out was free, and a page it takes back is free again. While it is in order
it either has a page or says that there is none. Not every manager takes back
each page in order; who only asks for pages has no need of that. -/
namespace Ucore.Paging
open Call

/-- A page manager and the pages that it has left. -/
class ManagedPages (α : Type) extends PmmManager α where
  free : α → Nat → Bool
  Ordered : α → Prop

section
variable {α : Type} [ManagedPages α]
open ManagedPages

/-- A page of the memory is given out. -/
structure Took (pmm after : α) (page : Nat) : Prop where
  was : free pmm page = true
  memory : nbase ≤ page ∧ page < npage
  left : free after = Function.update (free pmm) page false
  ordered : Ordered after

/-- A page is given back. -/
structure Gave (pmm after : α) (page : Nat) : Prop where
  left : free after = Function.update (free pmm) page true
  ordered : Ordered after

def Memory.free (vm : Memory α) : Nat → Bool := ManagedPages.free vm.pmm

end

class LawfulManager (α : Type) extends ManagedPages α where
  gives_out : ∀ pmm : α, Ordered pmm → (∃ page after, Returns allocPages pmm (some page) after ∧ Took pmm after page) ∨
    Returns allocPages pmm none pmm ∧ ∀ page, nbase ≤ page → page < npage → free pmm page = false

/-- A page in use is taken back in order, where the manager does not stop the system. -/
def TakesBack (α : Type) [ManagedPages α] (halt : Prop) : Prop :=
  ∀ (pmm : α) page, ManagedPages.Ordered pmm → nbase ≤ page → page < npage → ManagedPages.free pmm page = false →
    (∃ after, Returns (PmmManager.freePages page) pmm () after ∧ Gave pmm after page) ∨
      PmmManager.freePages page pmm = none ∧ halt

section
variable {α : Type}

def takePage (vm : Memory α) (pmm : α) : Memory α := { vm with pmm := pmm }

/-- What `free_page` leaves. -/
def givePage (vm : Memory α) (pmm : α) (page : Nat) : Memory α :=
  { vm with pmm := pmm, ref := Function.update vm.ref page 0 }

theorem onPmm_keeps {β : Type} {holds : Memory α → Prop} (blind : ∀ vm pmm, holds vm → holds (takePage vm pmm))
    (call : Call α β) : Keeps holds (onPmm call) := by
  have any : Keeps (fun _ => True) call := fun _ _ _ _ _ => trivial
  exact keeps_within any (fun _ _ => trivial) fun vm pmm held _ => blind vm pmm held

theorem allocPage_keeps [PmmManager α] {holds : Memory α → Prop} (blind : ∀ vm pmm, holds vm → holds (takePage vm pmm)) :
    Keeps holds allocPage := by
  refine keeps_bind (onPmm_keeps blind _) fun found => ?_
  cases found with
  | some page => exact keeps_pure
  | none =>
    refine keeps_bind (keeps_gets _) fun on => ?_
    split
    · exact keeps_stop
    · exact keeps_pure

end

variable {α : Type} [LawfulManager α] {vm : Memory α} {page : Nat} {bad : Int → Memory α → Prop} {halt : Prop}

/-- The frames that `alloc_page` has left. -/
def spare (vm : Memory α) : Nat := ((Finset.Ico nbase npage).filter fun page => vm.free page = true).card

theorem spare_taken {after : Memory α} (took : Took vm.pmm after.pmm page) : spare after + 1 = spare vm := by
  have member : page ∈ (Finset.Ico nbase npage).filter fun page => vm.free page = true :=
    Finset.mem_filter.mpr ⟨Finset.mem_Ico.mpr took.memory, took.was⟩
  have left : after.free = Function.update vm.free page false := took.left
  have rest : ((Finset.Ico nbase npage).filter fun page => after.free page = true) =
      ((Finset.Ico nbase npage).filter fun page => vm.free page = true).erase page := by
    ext frame
    rw [Finset.mem_erase, Finset.mem_filter, Finset.mem_filter, left]
    by_cases same : frame = page
    · rw [same, Function.update_self]
      simp only [Bool.false_eq_true, and_false, ne_eq, not_true_eq_false, false_and]
    · rw [Function.update_of_ne same]
      simp only [ne_eq, same, not_false_eq_true, true_and]
  rw [spare, rest, Finset.card_erase_add_one member, spare]

theorem spare_given {after : Memory α} (used : vm.free page = false) (memory : nbase ≤ page ∧ page < npage)
    (left : after.free = Function.update vm.free page true) : spare after = spare vm + 1 := by
  have rest : ((Finset.Ico nbase npage).filter fun page => after.free page = true) =
      insert page ((Finset.Ico nbase npage).filter fun page => vm.free page = true) := by
    ext frame
    rw [Finset.mem_insert, Finset.mem_filter, Finset.mem_filter, left]
    by_cases same : frame = page
    · rw [same, Function.update_self, Finset.mem_Ico]
      exact iff_of_true ⟨memory, rfl⟩ (.inl rfl)
    · rw [Function.update_of_ne same]
      exact ⟨.inr, fun either => either.resolve_left same⟩
  have fresh : page ∉ (Finset.Ico nbase npage).filter fun page => vm.free page = true := by
    rw [Finset.mem_filter, used]
    exact fun both => Bool.false_ne_true both.2
  rw [spare, rest, Finset.card_insert_of_notMem fresh, spare]

/-- `alloc_page` gives a page out, or there is none left. -/
theorem allocPage_settles {post : Option Nat → Memory α → Prop} (ordered : ManagedPages.Ordered vm.pmm)
    (taken : ∀ page pmm, Took vm.pmm pmm page → post (some page) (takePage vm pmm))
    (full : spare vm = 0 → vm.swapInitOk = false → post none vm)
    (out : spare vm = 0 → vm.swapInitOk = true → halt) : Settles allocPage post bad halt vm := by
  rcases LawfulManager.gives_out vm.pmm ordered with ⟨page, pmm, ran, took⟩ | ⟨ran, none_free⟩
  · exact .bind (.within (.of_run ran (.pure (taken page pmm took))))
  · have empty : spare vm = 0 := by
      rw [spare, Finset.card_eq_zero, Finset.filter_eq_empty_iff]
      intro page inside
      have inside := Finset.mem_Ico.mp inside
      rw [Memory.free, none_free page inside.1 inside.2]
      exact Bool.false_ne_true
    refine .bind (.within (.of_run ran (.bind (.gets ?_))))
    split
    · rename_i on
      exact .stop (out empty on)
    · rename_i off
      exact .pure (full empty (by simpa using off))

/-- `free_page` gives a page back that is in use. -/
theorem freePage_settles {post : Unit → Memory α → Prop} (ordered : ManagedPages.Ordered vm.pmm)
    (memory : nbase ≤ page ∧ page < npage) (used : vm.free page = false)
    (given : ∀ pmm, Gave vm.pmm pmm page → post () (givePage vm pmm page))
    (takes_back : TakesBack α halt) : Settles (freePage page) post bad halt vm := by
  rcases takes_back vm.pmm page ordered memory.1 memory.2 used with ⟨pmm, ran, gave⟩ | ⟨stopped, halted⟩
  · exact .bind (.within (.of_run ran (.modify (given pmm gave))))
  · have stops : onPmm (PmmManager.freePages page) vm = none := by
      rw [onPmm, within, stopped]
      rfl
    refine .bind ⟨fun _ _ ran => ?_, fun _ _ failed => ?_, fun _ => halted⟩
    · rw [Returns, stops] at ran
      cases ran
    · rw [Fails, stops] at failed
      cases failed

/-! ## The lowest page first -/

/-- The pages that are left, without an order of their own. -/
instance : PmmManager (Nat → Bool) where
  allocPages := do
    let found ← gets fun free => (List.range' nbase (npage - nbase)).find? free
    match found with
    | some page =>
      modify fun free => Function.update free page false
      return some page
    | none => return none
  freePages page := do
    let used ← gets fun free => !free page
    assert used
    modify fun free => Function.update free page true

instance : ManagedPages (Nat → Bool) where
  free free := free
  Ordered _ := True

instance : LawfulManager (Nat → Bool) where
  gives_out free _ := by
    have limit : nbase + (npage - nbase) = npage := rfl
    cases found : (List.range' nbase (npage - nbase)).find? free with
    | some page =>
      have member := List.mem_range'_1.mp (List.mem_of_find?_eq_some found)
      refine .inl ⟨page, Function.update free page false, ?_, List.find?_some found, ⟨member.1, by omega⟩, rfl, trivial⟩
      refine returns_bind.mpr ⟨some page, free, returns_gets.mpr ⟨found, rfl⟩, ?_⟩
      exact returns_bind.mpr ⟨(), _, returns_modify.mpr rfl, returns_pure.mpr ⟨rfl, rfl⟩⟩
    | none =>
      refine .inr ⟨?_, fun page low high => ?_⟩
      · exact returns_bind.mpr ⟨none, free, returns_gets.mpr ⟨found, rfl⟩, returns_pure.mpr ⟨rfl, rfl⟩⟩
      · have missed := List.find?_eq_none.mp found page (List.mem_range'_1.mpr ⟨low, by omega⟩)
        exact Bool.not_eq_true _ ▸ missed

theorem map_takes_back : TakesBack (Nat → Bool) halt := by
  intro free page _ _ _ used
  refine .inl ⟨Function.update free page true, ?_, rfl, trivial⟩
  refine returns_bind.mpr ⟨true, free, returns_gets.mpr ⟨?_, rfl⟩, ?_⟩
  · exact congrArg Bool.not used
  · exact returns_bind.mpr ⟨(), free, returns_assert.mpr ⟨rfl, rfl⟩, returns_modify.mpr rfl⟩

/-- The memory with a map of the pages that are left. -/
abbrev Vm := Memory (Nat → Bool)

end Ucore.Paging
