import Ucore.PagingCounts

/-! The reference counts over whole histories of the page tables. Which frames
are tables is read off the directories, so nothing is remembered beside the
memory itself. -/
namespace Ucore.Paging
open Call

variable {α : Type}

/-- A frame of the page tables below some directories, without the part of the kernel. -/
def TableFrame (vm : Memory α) (roots : Finset Nat) (frame : Nat) : Prop :=
  frame ∈ roots ∨ ∃ root ∈ roots, ∃ first < 511, ∃ table, child vm root first = some table ∧
    (frame = table ∨ ∃ second < 512, child vm table second = some frame)

/-- A page that `alloc_page` manages, in use and neither a table nor one of the kernel's own. -/
def DataPage [ManagedPages α] (vm : Memory α) (roots : Finset Nat) (kernel : Nat → Prop) (frame : Nat) : Prop :=
  (nbase ≤ frame ∧ frame < npage) ∧ vm.free frame = false ∧ ¬ TableFrame vm roots frame ∧ ¬ kernel frame

/-- The tables of the directories are trees of frames in use, they map data pages, and
each data page's count is the number of entries that map it. -/
structure Lawful [ManagedPages α] (vm : Memory α) (roots : Finset Nat) (kernel : Nat → Prop) : Prop where
  trees : ∃ role, Tables vm role ∧ ∀ frame, role frame = .root ↔ frame ∈ roots
  reserved : ∀ frame, kernel frame → vm.free frame = false ∧ ¬ TableFrame vm roots frame
  mapped : ∀ root ∈ roots, ∀ page, Plain page → ∀ entry, look vm root page = some entry →
    DataPage vm roots kernel (ppn entry)
  counted : ∀ frame, DataPage vm roots kernel frame → vm.ref frame = (mappers vm roots frame).card
  idle : ∀ frame, vm.free frame = true → vm.ref frame = 0

/-- The calls on the page tables, and the one that gives pages for them. -/
inductive Event where
  | allocPage
  | getPte (root la : Nat) (create : Bool)
  | pageInsert (root page la perm : Nat)
  | pageRemove (root la : Nat)
  | unmapRange (root start finish : Nat)
  | copyRange (target source start finish : Nat)

namespace Event

def call [PmmManager α] : Event → Call (Memory α) Unit
  | allocPage => do
    let _ ← Paging.allocPage
    return ()
  | getPte root la create => do
    let _ ← Paging.getPte root la create
    return ()
  | pageInsert root page la perm => Paging.pageInsert root page la perm
  | pageRemove root la => Paging.pageRemove root la
  | unmapRange root start finish => Paging.unmapRange root start finish
  | copyRange target source start finish => Paging.copyRange target source start finish

/-- The addresses are outside the I/O regions and the part of the kernel. -/
def Permitted [ManagedPages α] (vm : Memory α) (roots : Finset Nat) (kernel : Nat → Prop) : Event → Prop
  | allocPage => True
  | getPte root la _ => root ∈ roots ∧ Plain (pageOf la)
  | pageInsert root page la perm => root ∈ roots ∧ Plain (pageOf la) ∧ DataPage vm roots kernel page ∧ perm < 1024
  | pageRemove root la => root ∈ roots ∧ Plain (pageOf la)
  | unmapRange root start finish => root ∈ roots ∧ ∀ page, Within start finish page → Plain page
  | copyRange target source start finish =>
    target ∈ roots ∧ source ∈ roots ∧ ∀ page, Within start finish page → Plain page

/-- The pages whose mapping a call is about. -/
def Touches : Event → Nat → Nat → Prop
  | pageInsert root _ la _, root', page => root' = root ∧ page = pageOf la
  | pageRemove root la, root', page => root' = root ∧ page = pageOf la
  | unmapRange root start finish, root', page => root' = root ∧ Within start finish page
  | copyRange target _ start finish, root', page => root' = target ∧ Within start finish page
  | _, _, _ => False

/-- Only `copy_range` asks for pages after it has given some back. -/
def Copies : Event → Prop
  | copyRange .. => True
  | _ => False

end Event

/-- The state behind a call, whether it failed or not. -/
def step [PmmManager α] (vm : Memory α) (event : Event) : Option (Memory α) := (event.call vm).map Prod.snd

/-- What a call leaves of the references and the mappings. -/
structure Conserved [ManagedPages α] (roots : Finset Nat) (kernel : Nat → Prop) (vm : Memory α) (event : Event)
    (after : Memory α) : Prop where
  counted : ∀ frame, DataPage after roots kernel frame → after.ref frame = (mappers after roots frame).card
  lost : ∀ frame, DataPage vm roots kernel frame →
    (¬ DataPage after roots kernel frame ↔ mappers vm roots frame ≠ ∅ ∧ mappers after roots frame = ∅)
  freed : ¬ event.Copies → ∀ frame, DataPage vm roots kernel frame →
    (after.free frame = true ↔ mappers vm roots frame ≠ ∅ ∧ mappers after roots frame = ∅)
  elsewhere : ∀ root ∈ roots, ∀ page, Own page → ¬ event.Touches root page → look after root page = look vm root page

variable [LawfulManager α] {vm after : Memory α} {role role' : Nat → Role} {roots : Finset Nat} {kernel idle : Nat → Prop}
  {held : Nat → Nat} {frame : Nat}

/-- The tables are those that have the role. -/
theorem isTable_iff (tables : Tables vm role) (is_root : ∀ frame, role frame = .root ↔ frame ∈ roots) (frame : Nat) :
    IsTable role frame ↔ TableFrame vm roots frame := by
  constructor
  · rintro (root | ⟨n, table, index, same⟩)
    · exact .inl ((is_root frame).mp root)
    · obtain ⟨low, level, inside⟩ := tables.up frame n table index same
      have below := (tables.down table n index level inside frame).mpr same
      rcases Nat.lt_or_ge n 1 with zero | one
      · obtain rfl : n = 0 := by omega
        obtain ⟨parent, first, same'⟩ := level
        obtain ⟨_, level', inside'⟩ := tables.up table 1 parent first same'
        have above := (tables.down parent 1 first level' inside' table).mpr same'
        exact .inr ⟨parent, (is_root parent).mp level', first, inside', table, above, .inr ⟨index, inside, below⟩⟩
      · obtain rfl : n = 1 := by omega
        exact .inr ⟨table, (is_root table).mp level, index, inside, frame, below, .inl rfl⟩
  · rintro (member | ⟨root, member, first, inside, table, above, same | ⟨second, inside', below⟩⟩)
    · exact .inl ((is_root frame).mpr member)
    · subst same
      exact .inr ⟨1, root, first, (tables.down root 1 first ((is_root root).mpr member) inside frame).mp above⟩
    · have at_table := (tables.down root 1 first ((is_root root).mpr member) inside table).mp above
      exact .inr ⟨0, table, second, (tables.down table 0 second ⟨_, _, at_table⟩ inside' frame).mp below⟩

theorem dataPage_iff (tables : Tables vm role) (is_root : ∀ frame, role frame = .root ↔ frame ∈ roots) :
    DataPage vm roots kernel frame ↔ DataFrame role kernel frame := by
  rw [DataFrame, DataPage, ← isTable_iff tables is_root]
  constructor
  · rintro ⟨memory, used, plain, outside⟩
    refine ⟨(not_table plain).resolve_right fun free => ?_, outside, memory⟩
    rw [(tables.free frame).mp free] at used
    cases used
  · rintro ⟨other, outside, memory⟩
    have data : DataFrame role kernel frame := ⟨other, outside, memory⟩
    exact ⟨memory, data.used tables, data.plain, outside⟩

namespace Counted

theorem is_root (counted : Counted vm roots kernel idle held role) (frame : Nat) : role frame = .root ↔ frame ∈ roots :=
  ⟨counted.only frame, counted.rooted frame⟩

theorem dataPage (counted : Counted vm roots kernel idle held role) :
    DataPage vm roots kernel frame ↔ DataFrame role kernel frame := dataPage_iff counted.tables counted.is_root

theorem lawful (counted : Counted vm roots kernel idle (fun _ => 0) role) : Lawful vm roots kernel := by
  refine ⟨⟨role, counted.tables, counted.is_root⟩, fun frame own => ⟨?_, ?_⟩, fun root member page plain entry found => ?_,
    fun frame data => ?_, fun frame free => ?_⟩
  · have busy : ¬ vm.free frame = true := by
      rw [← counted.tables.free, counted.reserved frame own]
      exact Role.noConfusion
    simpa using busy
  · rw [← isTable_iff counted.tables counted.is_root]
    rintro (never | ⟨_, _, _, never⟩) <;> rw [counted.reserved frame own] at never <;> cases never
  · exact counted.dataPage.mpr (counted.mapped root member page plain entry found)
  · have data := counted.dataPage.mp data
    simpa using counted.counted frame data.2.2.1 data.2.2.2 data.plain data.2.1
  · have is_free := (counted.tables.free frame).mpr free
    have memory := counted.tables.inside frame (by rw [is_free]; exact Role.noConfusion)
    have plain : ¬ IsTable role frame := by
      rintro (never | ⟨_, _, _, never⟩) <;> rw [is_free] at never <;> cases never
    rw [counted.counted frame memory.1 memory.2 plain fun own => ?_, counted.no_mappers (by rw [is_free]; exact Role.noConfusion)]
    · rfl
    · have other := counted.reserved frame own
      rw [is_free] at other
      cases other

end Counted

/-- The data pages that are not mapped. -/
def Idle (vm : Memory α) (roots : Finset Nat) (kernel : Nat → Prop) (frame : Nat) : Prop :=
  DataPage vm roots kernel frame ∧ mappers vm roots frame = ∅

theorem Lawful.counts (lawful : Lawful vm roots kernel) :
    ∃ role, Counted vm roots kernel (Idle vm roots kernel) (fun _ => 0) role := by
  obtain ⟨role, tables, is_root⟩ := lawful.trees
  have data : ∀ {frame}, DataPage vm roots kernel frame ↔ DataFrame role kernel frame := dataPage_iff tables is_root
  refine ⟨role, tables, fun root => (is_root root).mpr, fun root => (is_root root).mp, fun frame own => ?_,
    fun root member page plain entry found => data.mp (lawful.mapped root member page plain entry found),
    fun frame low high plain outside => ?_, fun frame => and_congr_left' data⟩
  · obtain ⟨used, plain⟩ := lawful.reserved frame own
    rw [← isTable_iff tables is_root] at plain
    refine (not_table plain).resolve_right fun free => ?_
    rw [(tables.free frame).mp free] at used
    cases used
  · rcases not_table plain with other | free
    · rw [lawful.counted frame (data.mpr ⟨other, outside, low, high⟩)]
      rfl
    · have is_free := (tables.free frame).mp free
      have none : mappers vm roots frame = ∅ := by
        rw [Finset.eq_empty_iff_forall_notMem]
        rintro ⟨root, page⟩ mapped
        obtain ⟨member, plain', entry, found, rfl⟩ := mem_mappers.mp mapped
        have used := (lawful.mapped root member page plain' entry found).2.1
        rw [is_free] at used
        cases used
      rw [lawful.idle frame is_free, none]
      rfl

/-- What each call is shown to leave, with the roles of the frames. -/
structure Outcome (roots : Finset Nat) (kernel : Nat → Prop) (vm : Memory α) (role : Nat → Role) (event : Event)
    (after : Memory α) : Prop where
  counts : ∃ role' idle, Counted after roots kernel idle (fun _ => 0) role' ∧
    (∀ frame, Idle vm roots kernel frame → mappers after roots frame = ∅ → idle frame) ∧
    (∀ frame, idle frame → DataPage vm roots kernel frame → mappers vm roots frame = ∅) ∧
    (¬ event.Copies → ∀ frame, role frame = .other → role' frame = .other ∨ role' frame = .free)
  elsewhere : ∀ root ∈ roots, ∀ page, Own page → ¬ event.Touches root page → look after root page = look vm root page

/-- A page whose mappings are gone is no data page any more, unless it was idle before. -/
theorem Outcome.conserved {event : Event} (outcome : Outcome roots kernel vm role event after)
    (counted : Counted vm roots kernel idle held role) :
    Lawful after roots kernel ∧ Conserved roots kernel vm event after := by
  obtain ⟨⟨role', idle', counted', still, before, uses⟩, elsewhere⟩ := outcome
  have lawful := counted'.lawful
  have idles : ∀ {frame}, idle' frame ↔ DataPage after roots kernel frame ∧ mappers after roots frame = ∅ := by
    intro frame
    rw [counted'.unmapped, counted'.dataPage]
  have lost : ∀ frame, DataPage vm roots kernel frame →
      (¬ DataPage after roots kernel frame ↔ mappers vm roots frame ≠ ∅ ∧ mappers after roots frame = ∅) := by
    intro frame data
    constructor
    · intro lost
      have none : mappers after roots frame = ∅ := by
        rw [Finset.eq_empty_iff_forall_notMem]
        rintro ⟨root, page⟩ mapped
        obtain ⟨member, plain, entry, found, rfl⟩ := mem_mappers.mp mapped
        exact lost (lawful.mapped root member page plain entry found)
      exact ⟨fun was => lost (idles.mp (still frame ⟨data, was⟩ none)).1, none⟩
    · rintro ⟨was, none⟩ present
      exact was (before frame (idles.mpr ⟨present, none⟩) data)
  refine ⟨lawful, lawful.counted, lost, fun not_copy frame data => ?_, elsewhere⟩
  rw [← lost frame data, counted'.dataPage, ← counted'.tables.free]
  have frame_data := counted.dataPage.mp data
  constructor
  · rintro free ⟨other, _⟩
    rw [free] at other
    cases other
  · intro lost
    exact (uses not_copy frame frame_data.1).resolve_left fun other => lost ⟨other, frame_data.2⟩

theorem Outcome.same {event : Event} (counted : Counted after roots kernel (Idle vm roots kernel) (fun _ => 0) role')
    (uses : ¬ event.Copies → ∀ frame, role frame = .other → role' frame = .other ∨ role' frame = .free)
    (elsewhere : ∀ root ∈ roots, ∀ page, Own page → ¬ event.Touches root page → look after root page = look vm root page) :
    Outcome roots kernel vm role event after :=
  ⟨⟨role', _, counted, fun _ idle _ => idle, fun _ idle _ => idle.2, uses⟩, elsewhere⟩

/-- Every call that is permitted keeps the counts. -/
theorem event_settles {event : Event} (takes_back : TakesBack α True) (counted : Counted vm roots kernel (Idle vm roots kernel) (fun _ => 0) role)
    (permitted : event.Permitted vm roots kernel) :
    Settles event.call (fun _ => Outcome roots kernel vm role event) (fun _ => Outcome roots kernel vm role event) True vm := by
  have extended : ∀ {event : Event} {after role'}, Extended vm after role role' → Outcome roots kernel vm role event after := by
    intro event after role' ext
    refine .same (counted.extended ext) (fun _ frame other => .inl ?_) fun root member page own _ => ?_
    · rw [ext.kept frame (by rw [other]; exact Role.noConfusion), other]
    · exact ext.looks root page (counted.rooted root member) own
  have unchanged : ∀ {event : Event}, Outcome roots kernel vm role event vm := extended (.refl counted.tables)
  cases event with
  | allocPage =>
    refine .bind (allocPage_settles counted.tables.ordered (fun page pmm took => .pure ?_) (fun _ _ => .pure unchanged)
      fun _ _ => trivial)
    have taken : Taken vm (takePage vm pmm) page := ⟨took, fun _ _ => rfl, rfl, rfl, rfl⟩
    refine ⟨⟨_, _, taken.counted counted, fun _ idle _ => .inl idle, fun frame idle data => ?_, fun _ frame other => ?_⟩,
      fun root member page own _ => taken.look counted.tables (counted.rooted root member) own⟩
    · rcases idle with idle | rfl
      · exact idle.2
      · have used := data.2.1
        rw [Memory.free, took.was] at used
        cases used
    · by_cases same : frame = page
      · exact .inl (by rw [same, Function.update_self])
      · exact .inl (by rw [Function.update_of_ne same, other])
  | getPte root la create =>
    obtain ⟨member, plain⟩ := permitted
    cases create with
    | false =>
      refine .bind ((getPte_lookup counted.tables (counted.rooted root member) plain.1).weaken (fun _ after held => ?_)
        fun _ _ held => held)
      obtain ⟨_, rfl⟩ := held
      exact .pure unchanged
    | true =>
      refine .bind ((getPte_create counted.tables (counted.rooted root member) plain.1 fun _ _ => trivial).weaken
        (fun _ after held => ?_) fun _ _ held => held)
      obtain ⟨⟨role', ext⟩, _⟩ := held
      exact .pure (extended ext)
  | pageInsert root page la perm =>
    obtain ⟨member, plain, data, small⟩ := permitted
    refine (pageInsert_settles (fun _ => takes_back) counted member plain (counted.dataPage.mp data) small fun _ _ => trivial).weaken
      (fun _ after held => ?_) fun _ after held => ?_
    · obtain ⟨role', counted', changed, _⟩ := held
      refine ⟨⟨role', _, counted', fun frame idle none => ⟨idle, ?_⟩, fun _ idle _ => idle.1.2,
        fun _ frame other => (changed.freed frame other).imp_right And.left⟩, fun root' member' page' own apart => ?_⟩
      · rintro rfl
        have found := changed.looks root _ (counted.rooted root member) plain.1
        rw [if_pos ⟨rfl, rfl⟩] at found
        have mapped := mem_mappers.mpr ⟨member, plain, _, found, ppn_mapping small⟩
        rw [none] at mapped
        exact Finset.notMem_empty _ mapped
      · rw [changed.looks root' page' (counted.rooted root' member') own]
        exact if_neg apart
    · obtain ⟨_, role', _, ext⟩ := held
      exact extended ext
  | pageRemove root la =>
    obtain ⟨member, plain⟩ := permitted
    refine (pageRemove_settles takes_back counted member plain).weaken (fun _ after held => ?_) fun _ _ held => held
    obtain ⟨role', counted', changed, _⟩ := held
    refine .same counted' (fun _ frame other => (changed.freed frame other).imp_right And.left)
      fun root' member' page own apart => ?_
    rw [changed.looks root' page (counted.rooted root' member') own]
    exact if_neg apart
  | unmapRange root start finish =>
    obtain ⟨member, plain⟩ := permitted
    refine (unmapRange_settles takes_back counted member (fun _ => trivial) plain).weaken (fun _ after held => ?_) fun _ _ held => held
    obtain ⟨role', counted', unmapped⟩ := held
    refine .same counted' (fun _ frame other => ?_) fun root' member' page own apart => ?_
    · rcases unmapped.given frame with same | ⟨_, free⟩
      · exact .inl (same.trans other)
      · exact .inr free
    · exact unmapped.touched.elsewhere root' page (counted.rooted root' member') own fun same here => apart ⟨same, here⟩
  | copyRange target source start finish =>
    obtain ⟨member, source_member, plain⟩ := permitted
    have all : ∀ page, Within start finish page → look vm source page ≠ none →
        page ∈ (Finset.Ico (start / pgsize) (finish / pgsize)) := fun page within _ => Finset.mem_Ico.mpr within
    refine (copyRange_settles counted member source_member (fun _ => trivial) (fun page within _ => plain page within)
      (fun page inside => (plain page (Finset.mem_Ico.mp inside)).1) all (fun _ => takes_back) fun _ => trivial).weaken (fun _ after held => ?_)
      fun _ after held => ?_
    · obtain ⟨role', counted', copies, _⟩ := held
      exact .same counted' (fun not_copy => absurd trivial not_copy) fun root' member' page own apart =>
        copies.touched.elsewhere root' page (counted.rooted root' member') own fun same here => apart ⟨same, here⟩
    · obtain ⟨role', counted', touched⟩ := held
      exact .same counted' (fun not_copy => absurd trivial not_copy) fun root' member' page own apart =>
        touched.elsewhere root' page (counted.rooted root' member') own fun same here => apart ⟨same, here⟩

theorem step_outcome {event : Event} (takes_back : TakesBack α True) (counted : Counted vm roots kernel (Idle vm roots kernel) (fun _ => 0) role)
    (permitted : event.Permitted vm roots kernel) (ran : step vm event = some after) :
    Outcome roots kernel vm role event after := by
  obtain ⟨⟨outcome, reached⟩, ended, rfl⟩ := Option.map_eq_some_iff.mp ran
  cases outcome with
  | error ret => exact (event_settles takes_back counted permitted).fails ret reached ended
  | ok value => exact (event_settles takes_back counted permitted).returns value reached ended

/-- Every call that is permitted leaves the tables lawful. -/
theorem step_conserved {event : Event} (takes_back : TakesBack α True) (lawful : Lawful vm roots kernel)
    (permitted : event.Permitted vm roots kernel)
    (ran : step vm event = some after) : Lawful after roots kernel ∧ Conserved roots kernel vm event after := by
  obtain ⟨role, counted⟩ := lawful.counts
  exact (step_outcome takes_back counted permitted ran).conserved counted

/-! ## Blank memories -/

section
omit [LawfulManager α]

theorem child_blank {table index : Nat} (blank : ∀ frame index, vm.mem frame index = 0) : child vm table index = none := by
  rw [child, blank]
  rfl

/-- Nothing is written in the memory yet. -/
def blank (pmm : α) : Memory α where
  pmm := pmm
  ref _ := 0
  mem _ _ := 0
  swapInitOk := false
  bootPgdir := 0
  room _ := true

theorem blank_look {pmm : α} {root page : Nat} : look (blank pmm) root page = none :=
  look_absent (slotOf_absent (child_blank fun _ _ => rfl))

/-- Some of the frames in use may be directories. -/
theorem blank_lawful [ManagedPages α] {pmm : α} (ordered : ManagedPages.Ordered pmm)
    (memory : ∀ frame, ManagedPages.free pmm frame = true → nbase ≤ frame ∧ frame < npage)
    (inside : ∀ root ∈ roots, (nbase ≤ root ∧ root < npage) ∧ ManagedPages.free pmm root = false) :
    Lawful (blank pmm) roots fun _ => False := by
  let role : Nat → Role := fun frame =>
    if frame ∈ roots then .root else if ManagedPages.free pmm frame = true then .free else .other
  have not_table : ∀ frame n table index, role frame ≠ .table n table index := by
    intro frame n table index same
    simp only [role] at same
    split at same
    · cases same
    · split at same <;> cases same
  have is_root : ∀ frame, role frame = .root ↔ frame ∈ roots := by
    intro frame
    simp only [role]
    split
    · exact iff_of_true rfl ‹_›
    · split <;> exact iff_of_false Role.noConfusion ‹_›
  refine ⟨⟨role, ⟨fun frame => ?_, fun frame used => ?_, fun table n index level inside frame => ?_,
    fun frame n table index same => absurd same (not_table frame n table index), ordered⟩, is_root⟩, nofun,
    fun root member page plain entry found => ?_, fun frame data => ?_, fun frame free => rfl⟩
  · have left : (blank pmm).free frame = ManagedPages.free pmm frame := rfl
    rw [left]
    simp only [role]
    split
    · rename_i member
      rw [(inside frame member).2]
      exact iff_of_false Role.noConfusion Bool.false_ne_true
    · split
      · exact iff_of_true rfl ‹_›
      · exact iff_of_false Role.noConfusion ‹_›
  · simp only [role] at used
    split at used
    · rename_i member
      exact (inside frame member).1
    · split at used
      · exact memory frame ‹_›
      · exact absurd rfl used
  · rw [child_blank fun _ _ => rfl]
    exact iff_of_false nofun (not_table frame n table index)
  · rw [blank_look] at found
    cases found
  · have none : mappers (blank pmm) roots frame = ∅ := by
      rw [Finset.eq_empty_iff_forall_notMem]
      rintro ⟨root, page⟩ mapped
      obtain ⟨_, _, entry, found, _⟩ := mem_mappers.mp mapped
      rw [blank_look] at found
      cases found
    rw [none]
    rfl

end

/-- Frames in use that are blank, and free ones behind them. -/
def blankVm (used : Nat) : Vm := blank fun frame => decide (nbase + used ≤ frame ∧ frame < npage)

theorem blankVm_lawful {used : Nat} (few : nbase + used ≤ npage) (inside : ∀ root ∈ roots, nbase ≤ root ∧ root < nbase + used) :
    Lawful (blankVm used) roots fun _ => False := by
  apply blank_lawful trivial
  · intro frame free
    have bounds : nbase + used ≤ frame ∧ frame < npage := of_decide_eq_true free
    omega
  · intro root member
    have bounds := inside root member
    refine ⟨by omega, decide_eq_false ?_⟩
    omega

end Ucore.Paging
