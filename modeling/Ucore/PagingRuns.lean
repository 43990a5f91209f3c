import Ucore.FirstFitPagesProofs
import Ucore.PagingProofs

/-! The references of pages over the first-fit manager of the kernel. Until a page is given
back above the last block of its free list, every call on the page tables is one over the
manager that would stop there, and that one is lawful. -/
namespace Ucore.Paging
open Call FirstFitPages

/-! ## The same pages over another manager -/

section
variable {α β : Type} [ManagedPages α] [ManagedPages β] {seen : α → β} {vm after : Memory α} {roots : Finset Nat}
  {kernel : Nat → Prop} {frame : Nat} {event : Event}

/-- The managers have the same pages left, and are in order alike. -/
structure SamePages (seen : α → β) : Prop where
  free : ∀ pmm, ManagedPages.free (seen pmm) = ManagedPages.free pmm
  ordered : ∀ pmm, ManagedPages.Ordered (seen pmm) ↔ ManagedPages.Ordered pmm

variable (same : SamePages seen)
include same

theorem over_free : (vm.over seen).free = vm.free := same.free vm.pmm

theorem over_dataPage : DataPage (vm.over seen) roots kernel frame ↔ DataPage vm roots kernel frame := by
  rw [DataPage, DataPage, over_free same]
  exact Iff.rfl

theorem over_tables {role : Nat → Role} : Tables (vm.over seen) role ↔ Tables vm role := by
  have free : (vm.over seen).free = vm.free := over_free same
  constructor
  · intro tables
    exact ⟨fun frame => free ▸ tables.free frame, tables.inside, tables.down, tables.up, (same.ordered vm.pmm).mp tables.ordered⟩
  · intro tables
    exact ⟨fun frame => free ▸ tables.free frame, tables.inside, tables.down, tables.up, (same.ordered vm.pmm).mpr tables.ordered⟩

theorem over_lawful : Lawful (vm.over seen) roots kernel ↔ Lawful vm roots kernel := by
  have free : (vm.over seen).free = vm.free := over_free same
  constructor
  · intro lawful
    obtain ⟨role, tables, is_root⟩ := lawful.trees
    exact ⟨⟨role, (over_tables same).mp tables, is_root⟩, fun frame own => free ▸ lawful.reserved frame own,
      fun root member page plain entry found => (over_dataPage same).mp (lawful.mapped root member page plain entry found),
      fun frame data => lawful.counted frame ((over_dataPage same).mpr data), fun frame left => lawful.idle frame (free ▸ left)⟩
  · intro lawful
    obtain ⟨role, tables, is_root⟩ := lawful.trees
    exact ⟨⟨role, (over_tables same).mpr tables, is_root⟩, fun frame own => free ▸ lawful.reserved frame own,
      fun root member page plain entry found => (over_dataPage same).mpr (lawful.mapped root member page plain entry found),
      fun frame data => lawful.counted frame ((over_dataPage same).mp data), fun frame left => lawful.idle frame (free ▸ left)⟩

theorem over_permitted : event.Permitted (vm.over seen) roots kernel ↔ event.Permitted vm roots kernel := by
  cases event with
  | pageInsert root page la perm => exact and_congr_right fun _ => and_congr_right fun _ => and_congr_left fun _ => over_dataPage same
  | _ => exact Iff.rfl

theorem over_conserved (conserved : Conserved roots kernel (vm.over seen) event (after.over seen)) :
    Conserved roots kernel vm event after := by
  refine ⟨fun frame data => conserved.counted frame ((over_dataPage same).mpr data), fun frame data => ?_,
    fun copies frame data => ?_, conserved.elsewhere⟩
  · rw [← over_dataPage same]
    exact conserved.lost frame ((over_dataPage same).mpr data)
  · rw [← over_free same]
    exact conserved.freed copies frame ((over_dataPage same).mpr data)

end

section
variable {α β : Type} [PmmManager α] [PmmManager β] {gone : α → Prop} {seen : α → β} (managers : Managers gone seen)
include managers

theorem Event.call_alike (event : Event) : Alike gone seen event.call event.call := by
  cases event with
  | allocPage => exact .bind (allocPage_alike managers) fun _ => .pure ()
  | getPte root la create => exact .bind (getPte_alike managers root la create) fun _ => .pure ()
  | pageInsert root page la perm => exact pageInsert_alike managers root page la perm
  | pageRemove root la => exact pageRemove_alike managers root la
  | unmapRange root start finish => exact unmapRange_alike managers root start finish
  | copyRange target source start finish => exact copyRange_alike managers target source start finish

/-- A step that does not lose its way is a step over the other manager. -/
theorem step_over {vm after : Memory α} {event : Event} (ran : step vm event = some after) (on_way : ¬ gone after.pmm) :
    step (vm.over seen) event = some (after.over seen) := by
  obtain ⟨⟨outcome, reached⟩, ended, rfl⟩ := Option.map_eq_some_iff.mp ran
  rw [step, (Event.call_alike managers event).follows vm outcome reached ended on_way]
  rfl

end

/-! ## Runs -/

theorem guarded_samePages : SamePages FreeArea.guarded := ⟨fun _ => rfl, fun _ => Iff.rfl⟩

/-- A call that gives no page back above the last block leaves the tables lawful. -/
theorem step_counted {vm after : Memory FreeArea} {roots : Finset Nat} {kernel : Nat → Prop} {event : Event}
    (lawful : Lawful vm roots kernel) (permitted : event.Permitted vm roots kernel) (ran : step vm event = some after)
    (placed : after.pmm.aboveLast = false) : Lawful after roots kernel ∧ Conserved roots kernel vm event after := by
  have on_way : ¬ after.pmm.Astray := by
    rw [FreeArea.Astray, placed]
    exact Bool.false_ne_true
  have strict := step_over managers ran on_way
  obtain ⟨lawful', conserved⟩ := step_conserved guarded_takes_back ((over_lawful guarded_samePages).mpr lawful)
    ((over_permitted guarded_samePages).mpr permitted) strict
  exact ⟨(over_lawful guarded_samePages).mp lawful', over_conserved guarded_samePages conserved⟩

theorem run_lawful {vm final : Memory FreeArea} {roots : Finset Nat} {kernel : Nat → Prop} {events : List Event}
    (lawful : Lawful vm roots kernel)
    (along : Runs.Along step (fun vm event => event.Permitted vm roots kernel ∧
      ∀ after, step vm event = some after → after.pmm.aboveLast = false) vm events)
    (ran : Runs.run step vm events = some final) : Lawful final roots kernel := by
  have keeps : ∀ (vm : Memory FreeArea) (event : Event) (after : Memory FreeArea), Lawful vm roots kernel →
      (event.Permitted vm roots kernel ∧ ∀ after, step vm event = some after → after.pmm.aboveLast = false) →
      step vm event = some after → Lawful after roots kernel :=
    fun _ _ after lawful both stepped => (step_counted lawful both.1 stepped (both.2 after stepped)).1
  exact @Runs.run_keeps _ _ step _ (fun vm => Lawful vm roots kernel) _ _ _ keeps lawful along ran

/-- In every history of the page tables outside the I/O regions and the part of the kernel that
gives no page back above the last block of the free list, each data page's count is the number of
its mappings, a page is given back exactly when its last mapping goes, and every other mapping stays. -/
theorem references_counted (roots : Finset Nat) (kernel : Nat → Prop) (vm : Memory FreeArea) (events : List Event)
    (lawful : Lawful vm roots kernel)
    (permitted : Runs.Along step (fun vm event => event.Permitted vm roots kernel) vm events)
    (placed : Runs.Along step (fun vm event => ∀ after, step vm event = some after → after.pmm.aboveLast = false) vm events) :
    Runs.Along step (fun vm event => (∀ frame, DataPage vm roots kernel frame → vm.ref frame = (mappers vm roots frame).card) ∧
      ∀ after, step vm event = some after → Conserved roots kernel vm event after) vm events := by
  have keeps : ∀ (vm : Memory FreeArea) (event : Event), Lawful vm roots kernel →
      (event.Permitted vm roots kernel ∧ ∀ after, step vm event = some after → after.pmm.aboveLast = false) →
      ((∀ frame, DataPage vm roots kernel frame → vm.ref frame = (mappers vm roots frame).card) ∧
        ∀ after, step vm event = some after → Conserved roots kernel vm event after) ∧
      ∀ after, step vm event = some after → Lawful after roots kernel := by
    intro vm event lawful both
    have kept : ∀ after, step vm event = some after → Lawful after roots kernel ∧ Conserved roots kernel vm event after :=
      fun after ran => step_counted lawful both.1 ran (both.2 after ran)
    exact ⟨⟨lawful.counted, fun after ran => (kept after ran).2⟩, fun after ran => (kept after ran).1⟩
  exact Runs.along_of_invariant keeps lawful (permitted.and placed)

/-! ## Two processes -/

/-- A manager that has gone astray stays so. -/
theorem run_astray {vm final : Memory FreeArea} {events : List Event} (astray : vm.pmm.aboveLast = true)
    (ran : Runs.run step vm events = some final) : final.pmm.aboveLast = true := by
  induction events generalizing vm with
  | nil =>
    cases ran
    exact astray
  | cons event events ih =>
    obtain ⟨after, first, rest⟩ := Option.bind_eq_some_iff.mp ran
    obtain ⟨⟨outcome, reached⟩, ended, rfl⟩ := Option.map_eq_some_iff.mp first
    exact ih ((Event.call_alike managers event).remains vm astray outcome reached ended) rest

theorem placed_of_run {vm final : Memory FreeArea} {events : List Event} (ran : Runs.run step vm events = some final)
    (placed : final.pmm.aboveLast = false) :
    Runs.Along step (fun vm event => ∀ after, step vm event = some after → after.pmm.aboveLast = false) vm events := by
  induction events generalizing vm with
  | nil => trivial
  | cons event events ih =>
    obtain ⟨after, first, rest⟩ := Option.bind_eq_some_iff.mp ran
    refine ⟨fun after' first' => ?_, fun after' first' => ?_⟩
    all_goals
      cases first.symm.trans first'
    · by_contra found
      have astray : after.pmm.aboveLast = true := by simpa using found
      rw [run_astray astray rest] at placed
      cases placed
    · exact ih rest

/-- Directories in front of the manager's range, before anything is written. -/
theorem booted_lawful {pmm : FreeArea} {roots : Finset Nat} {start total : Nat} (inside : nbase + start + total ≤ npage)
    (ordered : pmm.toRegion.Ordered)
    (left : ∀ frame, pmm.toRegion.free frame = true ↔ nbase + start ≤ frame ∧ frame < nbase + start + total)
    (few : ∀ root ∈ roots, nbase ≤ root ∧ root < nbase + start) : Lawful (blank pmm) roots fun _ => False := by
  apply blank_lawful ordered
  · intro frame free
    have bounds := (left frame).mp free
    omega
  · intro root member
    have bounds := few root member
    refine ⟨by omega, ?_⟩
    by_contra free
    have low := ((left root).mp (Bool.not_eq_false _ ▸ free)).1
    omega

/-- A page is mapped by a process and copied to another, and both give up theirs. -/
def mapAndCopy : List Event :=
  [.allocPage, .allocPage, .pageInsert nbase (nbase + 2) 0x800000 (pteU ||| pteR ||| pteW),
    .copyRange (nbase + 1) nbase 0x800000 0x801000, .pageRemove nbase 0x800000, .unmapRange (nbase + 1) 0x800000 0x801000]

theorem allocPage_mem {α : Type} [PmmManager α] {vm after : Memory α} (ran : step vm .allocPage = some after) :
    after.mem = vm.mem := by
  have keeps : Keeps (fun vm' : Memory α => vm'.mem = vm.mem) (Event.call .allocPage) :=
    keeps_bind (allocPage_keeps fun _ _ same => same) fun _ => keeps_pure
  obtain ⟨⟨outcome, reached⟩, ended, rfl⟩ := Option.map_eq_some_iff.mp ran
  exact keeps vm rfl outcome reached ended

theorem mapAndCopy_counted : ∃ pmm final, pageInit 2 9 = some pmm ∧ Runs.run step (blank pmm) mapAndCopy = some final ∧
    final.free (nbase + 2) = true ∧
    Runs.Along step (fun vm event =>
      (∀ frame, DataPage vm {nbase, nbase + 1} (fun _ => False) frame → vm.ref frame = (mappers vm {nbase, nbase + 1} frame).card) ∧
      ∀ after, step vm event = some after → Conserved {nbase, nbase + 1} (fun _ => False) vm event after) (blank pmm) mapAndCopy := by
  let roots : Finset Nat := {nbase, nbase + 1}
  have few : ∀ root ∈ roots, nbase ≤ root ∧ root < nbase + 2 := by decide
  have limit : nbase + 2 + 9 ≤ npage := by decide
  have range_plain : ∀ page, Within 0x800000 0x801000 page → Plain page := by
    rintro page ⟨low, high⟩
    obtain rfl : page = 0x800 := by
      simp only [pgsize] at low high
      omega
    decide
  obtain ⟨pmm, booted, ordered, -, left⟩ := @pageInit_ordered 2 9 (by decide) limit
  have runs : ((pageInit 2 9).bind fun pmm => (Runs.run step (blank pmm) mapAndCopy).map fun vm =>
      (vm.pmm.aboveLast, vm.free (nbase + 2))) = some (false, true) := by decide +kernel
  have took : ((pageInit 2 9).bind fun pmm => (Runs.run step (blank pmm) [.allocPage, .allocPage]).map fun vm =>
      vm.free (nbase + 2)) = some false := by decide +kernel
  rw [booted, Option.bind_some] at runs took
  obtain ⟨final, ran, seen⟩ := Option.map_eq_some_iff.mp runs
  obtain ⟨placed, given⟩ := Prod.mk.inj seen
  have lawful := booted_lawful limit ordered left few
  refine ⟨pmm, final, booted, ran, given, references_counted _ _ _ _ lawful ?_ (placed_of_run ran placed)⟩
  refine ⟨trivial, fun first ran1 => ⟨trivial, fun second ran2 => ⟨⟨by decide, by decide, ⟨by decide, ?_, ?_, id⟩, by decide⟩, ?_⟩⟩⟩
  · rw [Runs.run, ran1, Option.bind_some, Runs.run, ran2] at took
    exact Option.some.inj took
  · rintro (same | ⟨_, _, _, _, _, below, _⟩)
    · exact absurd same (by decide)
    · have empty : second.mem = fun _ _ => 0 := (allocPage_mem ran2).trans (allocPage_mem ran1)
      rw [child_blank fun frame index => by rw [empty]] at below
      cases below
  · exact fun _ _ => ⟨⟨by decide, by decide, range_plain⟩, fun _ _ => ⟨⟨by decide, by decide⟩, fun _ _ =>
      ⟨⟨by decide, range_plain⟩, fun _ _ => trivial⟩⟩⟩

/-! ## A page above the last block -/

/-- All pages are handed out, five of them to a process that exits then; its pages go back in the order of their addresses. -/
def exitOutOfOrder : List Event :=
  List.replicate 8 .allocPage ++
    [.pageInsert (nbase + 2) (nbase + 3) 0x800000 (pteU ||| pteR ||| pteW),
      .pageInsert (nbase + 2) (nbase + 4) 0x801000 (pteU ||| pteR ||| pteW),
      .pageInsert (nbase + 2) (nbase + 6) 0x802000 (pteU ||| pteR ||| pteW),
      .pageInsert (nbase + 2) (nbase + 7) 0x803000 (pteU ||| pteR ||| pteW),
      .pageInsert (nbase + 2) (nbase + 5) 0x804000 (pteU ||| pteR ||| pteW),
      .pageInsert nbase (nbase + 8) 0x800000 (pteU ||| pteR ||| pteX),
      .pageInsert nbase (nbase + 9) 0x801000 (pteU ||| pteR ||| pteX),
      .pageInsert nbase (nbase + 10) 0x802000 (pteU ||| pteR ||| pteX),
      .unmapRange (nbase + 2) 0x800000 0x805000]

/-- A page listed twice is taken for two tables: the new one is cleared, and a mapping far from it is gone. -/
theorem mapping_lost : ∃ pmm vm after, pageInit 3 12 = some pmm ∧
    Runs.run step (blank pmm) (exitOutOfOrder ++ [.getPte (nbase + 1) 0x800000 true,
      .pageInsert (nbase + 1) (nbase + 8) 0x100000000 (pteU ||| pteR)]) = some vm ∧
    step vm (.getPte (nbase + 1) 0x200000000 true) = some after ∧
      (look vm (nbase + 1) 0x100000).map ppn = some (nbase + 8) ∧ look after (nbase + 1) 0x100000 = none := by
  have runs : ((pageInit 3 12).bind fun pmm =>
      (Runs.run step (blank pmm) (exitOutOfOrder ++ [.getPte (nbase + 1) 0x800000 true,
        .pageInsert (nbase + 1) (nbase + 8) 0x100000000 (pteU ||| pteR)])).bind fun vm =>
      (step vm (.getPte (nbase + 1) 0x200000000 true)).map fun after =>
        ((look vm (nbase + 1) 0x100000).map ppn, look after (nbase + 1) 0x100000)) = some (some (nbase + 8), none) := by
    decide +kernel
  obtain ⟨pmm, booted, runs⟩ := Option.bind_eq_some_iff.mp runs
  obtain ⟨vm, reached, runs⟩ := Option.bind_eq_some_iff.mp runs
  obtain ⟨after, stepped, seen⟩ := Option.map_eq_some_iff.mp runs
  obtain ⟨there, gone⟩ := Prod.mk.inj seen
  exact ⟨pmm, vm, after, booted, reached, stepped, there, gone⟩

/-! ## The part of the kernel -/

/-- Every entry outside the I/O regions that maps a frame. -/
def leaves {α : Type} (vm : Memory α) (roots : Finset Nat) (frame : Nat) : Finset (Nat × Nat) :=
  (roots ×ˢ Finset.range (512 * (512 * 512))).filter fun place =>
    (∀ region ∈ ioRegions, place.2 < region.1 / pgsize ∨ region.2 / pgsize ≤ place.2) ∧
      (look vm place.1 place.2).map ppn = some frame

/-- A directory with the kernel's tables, which map the page `nbase + 3` as they do all memory. -/
def direct (pmm : FreeArea) : Memory FreeArea where
  pmm := pmm
  ref frame := if frame = nbase + 1 ∨ frame = nbase + 2 then 1 else 0
  mem frame index :=
    if frame = nbase ∧ index = 511 then pteCreate (nbase + 1) pteV
    else if frame = nbase + 1 ∧ index = 0 then pteCreate (nbase + 2) pteV
    else if frame = nbase + 2 then pteCreate (nbase + index) (pteV ||| pteR ||| pteW)
    else 0
  swapInitOk := false
  bootPgdir := 0
  room _ := true

/-- The kernel's entry for a page is not counted among its references. -/
theorem kernel_entry_uncounted : ∃ pmm after, pageInit 3 8 = some pmm ∧
    Runs.run step (direct pmm) [.allocPage, .pageInsert nbase (nbase + 3) 0x800000 (pteR ||| pteW)] = some after ∧
      after.ref (nbase + 3) ≠ (leaves after {nbase} (nbase + 3)).card := by
  have runs : ((pageInit 3 8).bind fun pmm =>
      (Runs.run step (direct pmm) [.allocPage, .pageInsert nbase (nbase + 3) 0x800000 (pteR ||| pteW)]).map fun after =>
        (after.ref (nbase + 3), (look after nbase 0x800).map ppn, (look after nbase (511 * (512 * 512) + 3)).map ppn)) =
      some (1, some (nbase + 3), some (nbase + 3)) := by decide +kernel
  obtain ⟨pmm, booted, runs⟩ := Option.bind_eq_some_iff.mp runs
  obtain ⟨after, ran, seen⟩ := Option.map_eq_some_iff.mp runs
  obtain ⟨ref, pages⟩ := Prod.mk.inj seen
  obtain ⟨user, kernel⟩ := Prod.mk.inj pages
  refine ⟨pmm, after, booted, ran, ?_⟩
  have both : 1 < (leaves after {nbase} (nbase + 3)).card := by
    refine Finset.one_lt_card.mpr ⟨(nbase, 0x800), ?_, (nbase, 511 * (512 * 512) + 3), ?_, by decide⟩
    · exact Finset.mem_filter.mpr ⟨Finset.mem_product.mpr ⟨Finset.mem_singleton_self _, Finset.mem_range.mpr (by decide)⟩,
        by decide, user⟩
    · exact Finset.mem_filter.mpr ⟨Finset.mem_product.mpr ⟨Finset.mem_singleton_self _, Finset.mem_range.mpr (by decide)⟩,
        by decide, kernel⟩
  omega

end Ucore.Paging
