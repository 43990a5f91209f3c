import Ucore.DupMmapProofs
import Ucore.PagingRuns

/-! The copy of an address space over the first-fit manager of the kernel. While the free
list is in order each page of the child gets a frame of its own. After pages were given back
above the last block a page may be listed twice, and two pages of the child get one frame. -/
namespace Ucore.MmMap
open Call Paging FirstFitPages UserMem

/-- Where no page was given back above the last block of the free list and `dup_mmap` into a fresh
address space succeeds, the space is copied. -/
theorem dup_mmap_copies (roots : Finset Nat) (kernel : Nat → Prop) (vm : Memory FreeArea) (events : List Event)
    (space after : AddressSpace FreeArea) (source : Nat) (mm : Mm) (lawful : Paging.Lawful vm roots kernel)
    (permitted : Runs.Along step (fun vm event => event.Permitted vm roots kernel) vm events)
    (placed : Runs.Along step (fun vm event => ∀ after, step vm event = some after → after.pmm.aboveLast = false) vm events)
    (reached : Runs.run step vm events = some space.vm) (member : space.pgdir ∈ roots) (source_member : source ∈ roots)
    (differ : source ≠ space.pgdir) (parent : SetUp space.vm source mm) (fresh : Fresh space source)
    (ran : Returns (dupMmap source mm) space () after) : Forked roots space after source mm :=
  dupMmap_forked (run_lawful lawful (permitted.and placed) reached) member source_member differ parent fresh ran

/-! ## Small spaces -/

/-- A directory with one table of pages from `0x800000` on. -/
def OneLeaf {α : Type} (vm : Memory α) (pgdir table leaf count : Nat) : Prop :=
  (∀ index ∈ List.range 512, child vm pgdir index = if index = 0 then some table else none) ∧
    (∀ index ∈ List.range 512, child vm table index = if index = 4 then some leaf else none) ∧
    ∀ index ∈ List.range 512, valid (vm.mem leaf index) = decide (index < count)

instance {α : Type} (vm : Memory α) (pgdir table leaf count : Nat) : Decidable (OneLeaf vm pgdir table leaf count) :=
  inferInstanceAs (Decidable (_ ∧ _ ∧ _))

section
variable {α : Type} {vm : Memory α} {pgdir table leaf count child' page : Nat} {mm : Mm}

theorem OneLeaf.mapped (one : OneLeaf vm pgdir table leaf count) (user : page ∈ userPages) (there : look vm pgdir page ≠ none) :
    0x800 ≤ page ∧ page < 0x800 + count := by
  have bound : page < usertop / pgsize := Finset.mem_range.mp user
  obtain ⟨entry, found⟩ := Option.ne_none_iff_exists'.mp there
  obtain ⟨slot, at_slot, kept⟩ := Option.bind_eq_some_iff.mp found
  obtain ⟨below, first, at_slot⟩ := Option.bind_eq_some_iff.mp at_slot
  obtain ⟨bottom, second, rfl⟩ := Option.map_eq_some_iff.mp at_slot
  rw [one.1 _ (List.mem_range.mpr (Nat.mod_lt _ (by decide)))] at first
  split at first
  · cases first
    rw [one.2.1 _ (List.mem_range.mpr (Nat.mod_lt _ (by decide)))] at second
    split at second
    · cases second
      rw [one.2.2 _ (List.mem_range.mpr (Nat.mod_lt _ (by decide)))] at kept
      split at kept
      · have few : page % 512 < count := of_decide_eq_true ‹_›
        have limit : usertop / pgsize = 0x80000 := rfl
        omega
      · cases kept
    · cases second
  · cases first

/-- Its pages are those of the vmas. -/
theorem OneLeaf.setUp (one : OneLeaf vm pgdir table leaf count) (ordered : Ordered mm.mmapList)
    (covers : ∀ page, 0x800 ≤ page → page < 0x800 + count → PagesOf mm.mmapList page ∧ Plain page) : SetUp vm pgdir mm := by
  refine ⟨ordered, fun page user _ there => ?_, fun page user special entry found => ?_⟩
  · obtain ⟨low, high⟩ := one.mapped user there
    exact (covers page low high).1
  · obtain ⟨low, high⟩ := one.mapped user (by rw [found]; exact Option.some_ne_none _)
    exact absurd (covers page low high).2 special

/-- An empty directory beside it. -/
theorem OneLeaf.fresh (one : OneLeaf vm pgdir table leaf count) (plain : ∀ page, 0x800 ≤ page → page < 0x800 + count → Plain page)
    (empty : ∀ index ∈ List.range 512, child vm child' index = none) : Fresh ⟨vm, ⟨[], none⟩, child'⟩ pgdir := by
  have none : ∀ page, look vm child' page = none := fun page => by
    rw [look, slotOf, empty _ (List.mem_range.mpr (Nat.mod_lt _ (by decide)))]
    rfl
  refine ⟨rfl, fun page _ _ => none page, fun page user special => ?_⟩
  by_contra differ
  have there : look vm pgdir page ≠ Option.none := fun absent => differ ((none page).trans absent.symm)
  obtain ⟨low, high⟩ := one.mapped user there
  exact special (plain page low high)

end

/-! ## A list that is out of order -/

def pages (count : Nat) : UserMem.Mm := ⟨[⟨0x800000, 0x800000 + count * pgsize, ⟨true, false, true, false⟩⟩], none⟩

theorem ordered_pages {count : Nat} (some_page : 0 < count) (few : count < 512) : Ordered (pages count).mmapList := by
  have below : 0x800000 + count * pgsize ≤ usertop := by
    simp only [pgsize, usertop]
    omega
  refine ⟨?_, ?_, ?_, List.pairwise_singleton _ _⟩
  all_goals
    intro vma member
    rw [List.mem_singleton.mp member]
  · exact Nat.lt_add_of_pos_right (Nat.mul_pos some_page (by decide))
  · have start : 0x800000 % pgsize = 0 := by decide
    refine ⟨start, ?_⟩
    simp only [pgsize]
    omega
  · have start : userbase ≤ 0x800000 := by decide
    exact ⟨start, below⟩

theorem pages_plain {count page : Nat} (few : count < 512) (low : 0x800 ≤ page) (high : page < 0x800 + count) :
    PagesOf (pages count).mmapList page ∧ Plain page := by
  refine ⟨⟨_, List.mem_singleton_self _, ?_⟩, ?_, fun region member => .inl ?_⟩
  · simp only [Within, pgsize]
    omega
  · rw [Own]
    omega
  · have above : ∀ region ∈ ioRegions, 0xa00 ≤ region.1 / pgsize := by decide
    have bound := above region member
    omega

/-- The first and the third page of the child get the same frame. -/
theorem pages_of_child_share : ∃ pmm vm after, pageInit 3 12 = some pmm ∧ Runs.run step (blank pmm) exitOutOfOrder = some vm ∧
    SetUp vm nbase (pages 3) ∧ Fresh ⟨vm, ⟨[], none⟩, nbase + 1⟩ nbase ∧
    Returns (dupMmap nbase (pages 3)) ⟨vm, ⟨[], none⟩, nbase + 1⟩ () after ∧
    (look after.vm (nbase + 1) 0x800).map ppn = some (nbase + 6) ∧ (look after.vm (nbase + 1) 0x802).map ppn = some (nbase + 6) ∧
    ¬ Forked {nbase, nbase + 1, nbase + 2} ⟨vm, ⟨[], none⟩, nbase + 1⟩ after nbase (pages 3) := by
  have runs : ((pageInit 3 12).bind fun pmm => (Runs.run step (blank pmm) exitOutOfOrder).bind fun vm =>
      (dupMmap nbase (pages 3) ⟨vm, ⟨[], none⟩, nbase + 1⟩).map fun reached =>
        (decide (OneLeaf vm nbase (nbase + 13) (nbase + 14) 3 ∧ (∀ index ∈ List.range 512, child vm (nbase + 1) index = none) ∧
            reached.2.pgdir = nbase + 1 ∧ reached.1 = .ok ()),
          (look vm nbase 0x800).isSome, (look reached.2.vm (nbase + 1) 0x800).map ppn, (look reached.2.vm (nbase + 1) 0x802).map ppn)) =
      some (true, true, some (nbase + 6), some (nbase + 6)) := by decide +kernel
  obtain ⟨pmm, booted, runs⟩ := Option.bind_eq_some_iff.mp runs
  obtain ⟨vm, reached, runs⟩ := Option.bind_eq_some_iff.mp runs
  obtain ⟨⟨outcome, after⟩, ran, seen⟩ := Option.map_eq_some_iff.mp runs
  obtain ⟨shape, seen⟩ := Prod.mk.inj seen
  obtain ⟨there, seen⟩ := Prod.mk.inj seen
  obtain ⟨first, third⟩ := Prod.mk.inj seen
  obtain ⟨one, empty, same, ok⟩ := of_decide_eq_true shape
  dsimp only at ok first third same
  subst ok
  refine ⟨pmm, vm, after, booted, reached, one.setUp (ordered_pages (by decide) (by decide)) fun page low high => pages_plain (by decide) low high,
    one.fresh (fun page low high => (pages_plain (by decide) low high).2) empty,
    ran, first, third, fun forked => ?_⟩
  obtain ⟨entry, found⟩ := Option.isSome_iff_exists.mp there
  obtain ⟨copy, copied, -, -, -, alone⟩ := forked.present 0x800 (Finset.mem_range.mpr (by decide)) (by decide) entry found
  obtain ⟨copy', copied', frame'⟩ := Option.map_eq_some_iff.mp third
  rw [same] at copied
  have frame : ppn copy = nbase + 6 := by
    rw [copied] at first
    exact Option.some.inj first
  have apart := (alone (nbase + 1) (by decide) 0x802 (by decide) copy' copied' (frame'.trans frame.symm)).2
  exact absurd apart (by decide)

/-! ## A list in order -/

/-- A process maps a page twice, is copied and exits. -/
def copiedAndGone : List Event :=
  [.allocPage, .pageInsert (nbase + 2) (nbase + 3) 0x800000 (pteU ||| pteR ||| pteX),
    .pageInsert (nbase + 2) (nbase + 3) 0x801000 (pteU ||| pteR ||| pteX),
    .copyRange nbase (nbase + 2) 0x800000 0x802000, .unmapRange (nbase + 2) 0x800000 0x802000]

theorem copiedAndGone_permitted {pmm : FreeArea} {roots : Finset Nat} (lawful : Paging.Lawful (blank pmm) roots fun _ => False)
    (member : nbase ∈ roots ∧ nbase + 2 ∈ roots ∧ nbase + 3 ∉ roots)
    (first : (Runs.run step (blank pmm) [.allocPage]).map (fun vm => (vm.pmm.aboveLast, vm.free (nbase + 3))) = some (false, false))
    (second : (Runs.run step (blank pmm) (copiedAndGone.take 2)).map (fun vm => (vm.pmm.aboveLast, (look vm (nbase + 2) 0x800).map ppn)) =
      some (false, some (nbase + 3))) :
    Runs.Along step (fun vm event => event.Permitted vm roots fun _ => False) (blank pmm) copiedAndGone := by
  have range_plain : ∀ page, Within 0x800000 0x802000 page → Plain page := by
    rintro page ⟨low, high⟩
    simp only [pgsize] at low high
    exact (@pages_plain 2 page (by decide) (by omega) (by omega)).2
  refine ⟨trivial, fun vm1 ran1 => ?_⟩
  rw [Runs.run, ran1] at first
  obtain ⟨placed, used⟩ := Prod.mk.inj (Option.some.inj first)
  have data : DataPage vm1 roots (fun _ => False) (nbase + 3) := by
    refine ⟨by decide, used, ?_, id⟩
    rintro (same | ⟨_, _, _, _, _, below, _⟩)
    · exact member.2.2 same
    · have empty : vm1.mem = fun _ _ => 0 := allocPage_mem ran1
      rw [child_blank fun frame index => by rw [empty]] at below
      cases below
  have asked : Event.allocPage.Permitted (blank pmm) roots fun _ => False := trivial
  have lawful1 := (step_counted lawful asked ran1 placed).1
  have permitted : (Event.pageInsert (nbase + 2) (nbase + 3) 0x800000 (pteU ||| pteR ||| pteX)).Permitted vm1 roots fun _ => False :=
    ⟨member.2.1, by decide, data, by decide⟩
  refine ⟨permitted, fun vm2 ran2 => ?_⟩
  rw [copiedAndGone, List.take, Runs.run, ran1, Option.bind_some, List.take, Runs.run, ran2] at second
  obtain ⟨placed, mapped⟩ := Prod.mk.inj (Option.some.inj second)
  obtain ⟨entry, found, frame⟩ := Option.map_eq_some_iff.mp mapped
  have again := (step_counted lawful1 permitted ran2 placed).1.mapped (nbase + 2) member.2.1 0x800 (by decide) entry found
  rw [frame] at again
  exact ⟨⟨member.2.1, by decide, again, by decide⟩, fun _ _ => ⟨⟨member.1, member.2.1, range_plain⟩,
    fun _ _ => ⟨⟨member.2.1, range_plain⟩, fun _ _ => trivial⟩⟩⟩

/-- A parent with two pages; a page was given back below the last block before. -/
theorem two_pages_copied : ∃ pmm vm after, pageInit 3 11 = some pmm ∧ Runs.run step (blank pmm) copiedAndGone = some vm ∧
    Returns (dupMmap nbase (pages 2)) ⟨vm, ⟨[], none⟩, nbase + 1⟩ () after ∧
    Forked {nbase, nbase + 1, nbase + 2} ⟨vm, ⟨[], none⟩, nbase + 1⟩ after nbase (pages 2) := by
  let roots : Finset Nat := {nbase, nbase + 1, nbase + 2}
  have few : ∀ root ∈ roots, nbase ≤ root ∧ root < nbase + 3 := by decide
  have limit : nbase + 3 + 11 ≤ npage := by decide
  obtain ⟨pmm, booted, in_order, -, left⟩ := @pageInit_ordered 3 11 (by decide) limit
  have first : ((pageInit 3 11).bind fun pmm => (Runs.run step (blank pmm) [.allocPage]).map fun vm =>
      (vm.pmm.aboveLast, vm.free (nbase + 3))) = some (false, false) := by decide +kernel
  have second : ((pageInit 3 11).bind fun pmm => (Runs.run step (blank pmm) (copiedAndGone.take 2)).map fun vm =>
      (vm.pmm.aboveLast, (look vm (nbase + 2) 0x800).map ppn)) = some (false, some (nbase + 3)) := by decide +kernel
  have runs : ((pageInit 3 11).bind fun pmm => (Runs.run step (blank pmm) copiedAndGone).bind fun vm =>
      (dupMmap nbase (pages 2) ⟨vm, ⟨[], none⟩, nbase + 1⟩).map fun reached =>
        (vm.pmm.aboveLast, decide (OneLeaf vm nbase (nbase + 6) (nbase + 7) 2 ∧
          (∀ index ∈ List.range 512, child vm (nbase + 1) index = none) ∧ reached.1 = .ok ()))) = some (false, true) := by
    decide +kernel
  rw [booted, Option.bind_some] at first second runs
  obtain ⟨vm, reached, runs⟩ := Option.bind_eq_some_iff.mp runs
  obtain ⟨⟨outcome, after⟩, ran, seen⟩ := Option.map_eq_some_iff.mp runs
  obtain ⟨placed, shape⟩ := Prod.mk.inj seen
  obtain ⟨one, empty, ok⟩ := of_decide_eq_true shape
  dsimp only at ok
  subst ok
  have lawful := booted_lawful limit in_order left few
  refine ⟨pmm, vm, after, booted, reached, ran, ?_⟩
  apply dup_mmap_copies roots (fun _ => False) (blank pmm) copiedAndGone _ after nbase (pages 2) lawful
  · exact copiedAndGone_permitted lawful (by decide) first second
  · exact placed_of_run reached placed
  · exact reached
  · exact Finset.mem_insert_of_mem (Finset.mem_insert_self _ _)
  · exact Finset.mem_insert_self _ _
  · exact (Nat.succ_ne_self nbase).symm
  · exact one.setUp (ordered_pages (by decide) (by decide)) fun page low high => pages_plain (by decide) low high
  · exact one.fresh (fun page low high => (pages_plain (by decide) low high).2) empty
  · exact ran

end Ucore.MmMap
