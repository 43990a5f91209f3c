import Ucore.PageFault
import Ucore.PagingProofs
import Ucore.UserMemProofs

/-! What a page fault does. The handler keeps its promise where the page was not
there and its vma can be read and written but not executed; elsewhere it maps
the page without the rights that were asked for, or puts a page of the swap
device in the place of one that is there. -/
namespace Ucore.PageFaultProofs
open Call Paging PageFault UserMem UserMemProofs

variable {vm mid after : Vm} {role role' : Nat → Role} {root page frame table index la n perm : Nat}
  {slot : Nat × Nat} {bad : Int → Vm → Prop} {halt : Prop}

/-! ## Entries on the way to a page -/

/-- The word that stands for a page; without a table it is 0. -/
def entryAt (vm : Vm) (root page : Nat) : Nat :=
  ((slotOf vm root page).map fun slot => vm.mem slot.1 slot.2).getD 0

def SameEntries (vm after : Vm) (role : Nat → Role) : Prop :=
  ∀ root page, role root = .root → Own page → entryAt after root page = entryAt vm root page

theorem entryAt_slot (at_slot : slotOf vm root page = some slot) : entryAt vm root page = vm.mem slot.1 slot.2 := by
  rw [entryAt, at_slot, Option.map_some, Option.getD_some]

theorem look_entryAt : look vm root page =
    if valid (entryAt vm root page) then some (entryAt vm root page) else none := by
  cases at_slot : slotOf vm root page with
  | none =>
    rw [look_absent at_slot, entryAt, at_slot]
    rfl
  | some slot => rw [entryAt_slot at_slot, look, at_slot, Option.bind_some]

theorem look_some {entry : Nat} (found : look vm root page = some entry) :
    entryAt vm root page = entry ∧ valid entry = true := by
  rw [look_entryAt] at found
  split at found
  · obtain rfl := Option.some.inj found
    exact ⟨rfl, ‹_›⟩
  · cases found

/-- A new table is blank, and the others are not written but for the entry above it. -/
theorem withTable_entries (tables : Tables vm role) (level : Level role table (n + 1)) (inside : index < width (n + 1))
    (absent : child vm table index = none) {pmm : Nat → Bool} (took : Took vm.pmm pmm frame) :
    SameEntries vm (withTable vm pmm table index frame) role := by
  intro root page is_root own
  have apart := withTable_apart tables level took
  have mem := withTable_mem tables level took index
  have children := withTable_child tables level took index
  have ext := withTable_extended tables level took inside absent
  cases at_slot : slotOf vm root page with
  | some slot =>
    obtain ⟨middle, _, low, _⟩ := tables.slot_roles is_root own at_slot
    have not_table : slot.1 ≠ table := by
      intro same
      rw [same] at low
      have zero := Level.unique level (show Level role table 0 from ⟨_, _, low⟩)
      omega
    have not_new : slot.1 ≠ frame := by
      intro same
      rw [same, (tables.free frame).mpr took.was] at low
      cases low
    rw [entryAt_slot at_slot, entryAt_slot (ext.slots root page slot is_root own at_slot), mem,
      if_neg fun both => not_table both.1, if_neg not_new]
  | none =>
    rw [show entryAt vm root page = 0 by rw [entryAt, at_slot]; rfl]
    cases at_slot' : slotOf (withTable vm pmm table index frame) root page with
    | none => rw [entryAt, at_slot']; rfl
    | some slot =>
      rw [entryAt_slot at_slot']
      obtain ⟨middle, first, rest⟩ := Option.bind_eq_some_iff.mp at_slot'
      obtain ⟨leaf, second, rfl⟩ := Option.map_eq_some_iff.mp rest
      rw [children] at first second
      by_cases new : leaf = frame
      · rw [new, mem, if_neg fun both => apart both.1.symm, if_pos rfl]
      -- another leaf was there before
      rw [if_neg fun both => new ?_] at second
      · split at second
        · cases second
        rename_i of_new
        split at first
        · exact absurd (Option.some.inj first).symm of_new
        split at first
        · cases first
        · have found : slotOf vm root page = some (leaf, page % 512) := by
            rw [slotOf, first, Option.bind_some, second, Option.map_some]
          rw [at_slot] at found
          cases found
      · rw [if_pos both] at second
        exact (Option.some.inj second).symm

theorem makeTable_entries (tables : Tables vm role) (level : Level role table (n + 1)) (inside : index < width (n + 1)) :
    Settles (makeTable table index true)
      (fun made after => (∃ role', Extended vm after role role' ∧ SameEntries vm after role) ∧
        (made = true → child after table index ≠ none) ∧ (made = false → vm.swapInitOk = false)) bad True vm := by
  refine makeTable_settles tables.ordered
    (fun there => ⟨⟨role, .refl tables, fun _ _ _ _ => rfl⟩, fun _ => there, fun never => by cases never⟩)
    (fun _ never => by cases never) (fun new pmm absent _ took => ⟨⟨_, withTable_extended tables level took inside absent,
      withTable_entries tables level inside absent took⟩, fun _ => ?_, fun never => by cases never⟩)
    (fun _ _ _ off => ⟨⟨role, .refl tables, fun _ _ _ _ => rfl⟩, fun never => (Bool.false_ne_true never).elim, fun _ => off⟩)
    fun _ _ _ _ => trivial
  rw [withTable_child tables level took, if_pos ⟨rfl, rfl⟩]
  exact Option.some_ne_none new

theorem SameEntries.trans (first : SameEntries vm mid role) (second : SameEntries mid after role')
    (roots : ∀ root, role root = .root → role' root = .root) : SameEntries vm after role := by
  intro root page is_root own
  rw [second root page (roots root is_root) own, first root page is_root own]

theorem extended_root (ext : Extended vm after role role') (is_root : role root = .root) : role' root = .root := by
  rw [ext.kept root (by rw [is_root]; exact Role.noConfusion), is_root]

/-- `get_pte` may make tables, but every entry stays; with the swap manager on it never refuses. -/
theorem getPte_entries (tables : Tables vm role) (is_root : role root = .root) (own : Own (pageOf la)) :
    Settles (getPte root la true)
      (fun found after => SameEntries vm after role ∧ (found = none → vm.swapInitOk = false)) bad True vm := by
  refine .bind ((makeTable_entries tables (show Level role root 2 from is_root) own.pdx1).weaken
    (fun made1 vm1 held => ?_) fun _ _ held => held)
  obtain ⟨⟨role1, ext1, same1⟩, there1, off1⟩ := held
  cases made1 with
  | false => exact .pure ⟨same1, fun _ => off1 rfl⟩
  | true =>
    have is_root1 := extended_root ext1 is_root
    refine .bind (tableAt_settles (there1 rfl)
      (fun _ below => (ext1.tables.child_memory (n := 1) is_root1 own.pdx1 below).2) fun middle first => ?_)
    have in_middle := (ext1.tables.down root 1 _ is_root1 own.pdx1 middle).mp first
    refine .bind ((makeTable_entries ext1.tables (show Level role1 middle 1 from ⟨_, _, in_middle⟩) (pdx0_below la)).weaken
      (fun made0 vm2 held => ?_) fun _ _ held => held)
    obtain ⟨⟨role2, ext2, same2⟩, there2, off2⟩ := held
    have same := same1.trans same2 fun _ => extended_root ext1
    cases made0 with
    | false => exact .pure ⟨same, fun _ => ext1.config.1.symm.trans (off2 rfl)⟩
    | true =>
      have in_middle2 : role2 middle = .table 1 root (pdx1 la) := by
        rw [ext2.kept middle (by rw [in_middle]; exact Role.noConfusion), in_middle]
      exact .bind (tableAt_settles (there2 rfl) (fun _ below => (ext2.tables.child_memory (n := 0) ⟨_, _, in_middle2⟩
        (pdx0_below la) below).2) fun leaf _ => .pure ⟨same, fun never => (Option.some_ne_none _ never).elim⟩)

/-- Where the tables are there, `get_pte` only walks them. -/
theorem getPte_there {create : Bool} {post : Option (Nat × Nat) → Vm → Prop} (tables : Tables vm role)
    (is_root : role root = .root) (own : Own (pageOf la)) (at_slot : slotOf vm root (pageOf la) = some slot)
    (held : post (some slot) vm) : Settles (getPte root la create) post bad halt vm := by
  obtain ⟨middle, first, rest⟩ := Option.bind_eq_some_iff.mp at_slot
  obtain ⟨leaf, second, rfl⟩ := Option.map_eq_some_iff.mp rest
  rw [← pdx1_page] at first
  rw [← pdx0_page] at second
  rw [← ptx_page] at held
  have in_middle := (tables.down root 1 _ is_root own.pdx1 middle).mp first
  have absent_not : ∀ {table index child'}, child vm table index = some child' → child vm table index ≠ none := by
    intro _ _ _ found absent
    rw [found] at absent
    cases absent
  refine .bind (makeTable_settles tables.ordered (fun there => ?_) (fun absent => absurd absent (absent_not first))
    (fun _ _ absent => absurd absent (absent_not first)) (fun absent => absurd absent (absent_not first))
    fun absent => absurd absent (absent_not first))
  refine .bind (tableAt_settles there (fun _ below => (tables.child_memory (n := 1) is_root own.pdx1 below).2)
    fun middle' first' => ?_)
  obtain rfl := Option.some.inj (first.symm.trans first')
  refine .bind (makeTable_settles tables.ordered (fun there => ?_) (fun absent => absurd absent (absent_not second))
    (fun _ _ absent => absurd absent (absent_not second)) (fun absent => absurd absent (absent_not second))
    fun absent => absurd absent (absent_not second))
  refine .bind (tableAt_settles there (fun _ below => (tables.child_memory (n := 0) ⟨_, _, in_middle⟩
    (pdx0_below la) below).2) fun leaf' second' => ?_)
  obtain rfl := Option.some.inj (second.symm.trans second')
  exact .pure held

/-! ## A mapping -/

theorem putEntry_twice (first second : Nat) :
    (putEntry (putEntry vm slot first) slot second).mem = (putEntry vm slot second).mem := by
  simp only [putEntry, Function.update_self, Function.update_idem]

/-- `free_page` stops at a page that is left already. -/
theorem freePage_map {post : Unit → Vm → Prop} (held : post () (givePage vm (Function.update vm.pmm page true) page))
    (stops : halt) : Settles (freePage page) post bad halt vm :=
  .bind (.within (.bind (.gets (.bind (.assert (fun _ => .modify (.modify held)) fun _ => stops)))))

/-- Where the tables are there, `page_insert` writes one entry; it may stop only at a mapping that is there. -/
theorem pageInsert_there (tables : Tables vm role) (is_root : role root = .root) (own : Own (pageOf la))
    (at_slot : slotOf vm root (pageOf la) = some slot) :
    Settles (pageInsert root frame la perm)
      (fun _ after => after.mem = (putEntry vm slot (mapping frame perm)).mem ∧
        (valid (vm.mem slot.1 slot.2) = false → after.pmm = vm.pmm))
      bad (valid (vm.mem slot.1 slot.2) = true) vm := by
  refine .bind (getPte_there tables is_root own at_slot ?_)
  refine .bind (.modify (.bind (.gets (.bind (.onlyIf (fun maps => ?_) fun unmapped => ?_)))))
  · have maps' : valid (vm.mem slot.1 slot.2) = true := maps
    have twice := @putEntry_twice vm slot 0 (mapping frame perm)
    have not_unmapped : ¬ valid (vm.mem slot.1 slot.2) = false := by
      rw [maps']
      decide
    refine .bind (.bind (.assert (fun _ => .bind (.assert (fun _ => .pure ?_) fun _ => maps')) fun _ => maps'))
    split
    · exact .modify (.modify ⟨rfl, fun unmapped => absurd unmapped not_unmapped⟩)
    · refine .bind (.gets (.onlyIf (fun _ => ?_) fun unmapped => absurd maps (by rw [unmapped]; decide)))
      refine .bind (.bind (.assert (fun _ => .bind (.assert (fun _ => .pure ?_) fun _ => maps')) fun _ => maps'))
      refine .bind (.modify (.bind (.gets (.bind (.onlyIf (fun _ => ?_) fun _ => ?_)))))
      · refine freePage_map (.modify (.modify ⟨?_, fun unmapped => absurd unmapped not_unmapped⟩)) maps'
        exact twice
      · exact .modify (.modify ⟨twice, fun unmapped => absurd unmapped not_unmapped⟩)
  · exact .modify ⟨rfl, fun _ => rfl⟩

/-- One page of a space is mapped anew, to a frame that was free. -/
structure Filled (vm after : Vm) (role : Nat → Role) (root page frame perm : Nat) : Prop where
  fresh : role frame = .free
  looks : ∀ other, Own other → look after root other = if other = page then some (mapping frame perm) else look vm root other
  kept : ∀ other, role other = .other → after.mem other = vm.mem other

/-- A frame is taken, perhaps filled, and the entry put that maps it. -/
theorem Filled.of_put (tables : Tables vm role) (is_root : role root = .root) (own : Own page)
    (at_slot : slotOf vm root page = some slot) (free : vm.free frame = true) (small : perm < 1024)
    (filled : ∀ other, other ≠ frame → mid.mem other = vm.mem other)
    (mem : after.mem = (putEntry mid slot (mapping frame perm)).mem) : Filled vm after role root page frame perm := by
  have is_free := (tables.free frame).mpr free
  have apart : ∀ {other}, role other ≠ .free → other ≠ frame := by
    rintro other used rfl
    exact used is_free
  obtain ⟨_, _, low, _⟩ := tables.slot_roles is_root own at_slot
  have same : ∀ other, IsTable role other → mid.mem other = vm.mem other := by
    intro other table
    refine filled other (apart ?_)
    rcases table with same | ⟨_, _, _, same⟩ <;> rw [same] <;> exact Role.noConfusion
  refine ⟨is_free, fun other own' => ?_, fun other is_other => ?_⟩
  · have base : Tables { vm with mem := mid.mem } role :=
      tables.transfer (fun _ _ => rfl) (fun _ table => table) tables.free
        (fun other is_free => tables.inside other (by rw [is_free]; exact Role.noConfusion))
        (fun other n level => same other level.isTable) trivial
    have at_slot' : slotOf { vm with mem := mid.mem } root page = some slot := by
      rw [← at_slot]
      exact tables.slotOf_same is_root own fun other n level => same other level.isTable
    have put : look (putEntry { vm with mem := mid.mem } slot (mapping frame perm)) root other =
        if root = root ∧ other = page then (if valid (mapping frame perm) then some (mapping frame perm) else none)
        else look { vm with mem := mid.mem } root other := base.put_look is_root own at_slot' is_root own'
    have rest : look { vm with mem := mid.mem } root other = look vm root other := tables.look_same is_root own' same
    have written : look after root other = look (putEntry { vm with mem := mid.mem } slot (mapping frame perm)) root other :=
      look_congr mem
    rw [written, put, valid_mapping frame small, if_pos rfl, rest]
    simp only [true_and]
  · rw [mem]
    refine (Function.update_of_ne ?_ _ _).trans (filled other (apart ?_))
    · rintro rfl
      rw [low] at is_other
      cases is_other
    · rw [is_other]
      exact Role.noConfusion

theorem taken_root (tables : Tables vm role) {pmm : Nat → Bool} (took : Took vm.pmm pmm frame)
    (is_root : role root = .root) : Tables (takePage vm pmm) (Function.update role frame .other) ∧
      Function.update role frame .other root = .root ∧ spare vm ≠ 0 := by
  have taken : Taken vm (takePage vm pmm) frame := ⟨took, fun _ _ => rfl, rfl, rfl, rfl⟩
  refine ⟨taken.tables tables, ?_, ?_⟩
  · rw [Function.update_of_ne, is_root]
    rintro rfl
    rw [(tables.free _).mpr took.was] at is_root
    cases is_root
  · have one := taken.spare
    omega

/-- `pgdir_alloc_page` for a page that is not there but has its tables. -/
theorem pgdirAllocPage_settles (tables : Tables vm role) (is_root : role root = .root) (own : Own (pageOf la))
    (at_slot : slotOf vm root (pageOf la) = some slot) (unmapped : valid (vm.mem slot.1 slot.2) = false) (small : perm < 1024) :
    Settles (pgdirAllocPage root la perm)
      (fun made after => (made = none → after = vm ∧ spare vm = 0 ∧ vm.swapInitOk = false) ∧
        ∀ frame, made = some frame → spare vm ≠ 0 ∧ Filled vm after role root (pageOf la) frame perm)
      bad (spare vm = 0 ∧ vm.swapInitOk = true) vm := by
  refine .bind (allocPage_settles tables.ordered (fun frame pmm took => ?_)
    (fun empty off => .pure ⟨fun _ => ⟨rfl, empty, off⟩, fun _ never => by cases never⟩) fun empty on => ⟨empty, on⟩)
  obtain ⟨tables', is_root', some_left⟩ := taken_root tables took is_root
  have insert : Settles (pageInsert root frame la perm) _ (fun _ _ => False) _ (takePage vm pmm) :=
    pageInsert_there tables' is_root' own at_slot
  refine .bind (.attempt ((insert.weaken (fun _ after held => ?_) fun _ _ never => never.elim).halts fun maps => ?_))
  · refine .pure ⟨fun never => (Option.some_ne_none _ never).elim, fun frame' same => ?_⟩
    obtain rfl := Option.some.inj same
    exact ⟨some_left, .of_put tables is_root own at_slot took.was small (fun _ _ => rfl) held.1⟩
  · have maps' : valid (vm.mem slot.1 slot.2) = true := maps
    rw [unmapped] at maps'
    cases maps'

/-! ## The branches of the handler -/

variable {state : Faulting}

/-- A frame is taken and filled with some words. -/
def withPage (vm : Vm) (pmm : Nat → Bool) (frame : Nat) (words : Nat → Nat) : Vm :=
  { takePage vm pmm with mem := Function.update vm.mem frame words }

/-- The words on the device that an entry stands for. -/
def slotWords (state : Faulting) (entry : Nat) : Nat → Nat := state.swapfs (swapOffset entry state.maxSwapOffset)

/-- The page that comes back has the words of its slot, wherever the entry came from. -/
theorem swapIn_settles {post : Nat → Faulting → Prop} {bad : Int → Faulting → Prop} (tables : Tables state.vm role)
    (is_root : role state.pgdir = .root) (own : Own (pageOf la)) (at_slot : slotOf state.vm state.pgdir (pageOf la) = some slot)
    (full : spare state.vm = 0 → halt)
    (back : ∀ frame pmm, Took state.vm.pmm pmm frame →
      post frame { state with vm := withPage state.vm pmm frame (slotWords state (state.vm.mem slot.1 slot.2)) }) :
    Settles (swapIn la) post bad halt state := by
  refine .bind (.within (allocPage_settles tables.ordered (fun frame pmm took => ?_) (fun empty _ => .stop (full empty)) fun empty _ => full empty))
  obtain ⟨tables', is_root', _⟩ := taken_root tables took is_root
  refine .bind (.gets (.bind (.within (getPte_there tables' is_root' own at_slot ?_))))
  exact .bind (.within (.gets (.bind (.modify (.pure (back frame pmm took))))))

theorem withPage_tables (tables : Tables vm role) {pmm : Nat → Bool} (took : Took vm.pmm pmm frame)
    (words : Nat → Nat) : Tables (withPage vm pmm frame words) (Function.update role frame .other) :=
  (⟨took, fun _ apart => Function.update_of_ne apart _ _, rfl, rfl, rfl⟩ :
    Taken vm (withPage vm pmm frame words) frame).tables tables

/-- A page whose entry is not 0: its words come from the device, whatever the entry is. -/
theorem faultSwapped_settles (tables : Tables state.vm role) (is_root : role state.pgdir = .root)
    (own : Own (pageOf la)) (at_slot : slotOf state.vm state.pgdir (pageOf la) = some slot) (small : perm < 1024) :
    Settles (faultSwapped la perm)
      (fun _ after => state.vm.swapInitOk = true ∧ spare state.vm ≠ 0 ∧ state.smPriv = true ∧
        ∃ frame, Filled state.vm after.vm role state.pgdir (pageOf la) frame perm ∧
          after.vm.mem frame = slotWords state (state.vm.mem slot.1 slot.2))
      (fun ret after => ret = -eNoMem ∧ after = state ∧ state.vm.swapInitOk = false)
      (state.vm.swapInitOk = true ∧
        (spare state.vm = 0 ∨ valid (state.vm.mem slot.1 slot.2) = true ∨ state.smPriv = false)) state := by
  refine .bind (.gets ?_)
  split
  swap
  · rename_i off
    exact .fail ⟨rfl, rfl, by simpa using off⟩
  rename_i on
  refine .bind (swapIn_settles tables is_root own at_slot (fun empty => ⟨on, .inl empty⟩) fun frame pmm took => ?_)
  obtain ⟨_, is_root', some_left⟩ := taken_root tables took is_root
  have tables' := withPage_tables tables took (slotWords state (state.vm.mem slot.1 slot.2))
  obtain ⟨_, _, low, _⟩ := tables.slot_roles is_root own at_slot
  have apart : frame ≠ slot.1 := by
    rintro rfl
    rw [(tables.free _).mpr took.was] at low
    cases low
  have filled : ∀ other, other ≠ frame → (withPage state.vm pmm frame
      (slotWords state (state.vm.mem slot.1 slot.2))).mem other = state.vm.mem other :=
    fun other apart => Function.update_of_ne apart _ _
  have at_slot' : slotOf (withPage state.vm pmm frame (slotWords state (state.vm.mem slot.1 slot.2))) state.pgdir
      (pageOf la) = some slot := by
    rw [← at_slot]
    refine tables.slotOf_same is_root own fun other n level => filled other ?_
    rintro rfl
    exact level.not_free ((tables.free _).mpr took.was)
  have same_word : (withPage state.vm pmm frame (slotWords state (state.vm.mem slot.1 slot.2))).mem slot.1 slot.2 =
      state.vm.mem slot.1 slot.2 := by rw [filled slot.1 (Ne.symm apart)]
  have insert : Settles (pageInsert state.pgdir frame la perm) _ (fun _ _ => False) _ _ :=
    pageInsert_there tables' is_root' own at_slot'
  refine .bind (.within (.attempt ((insert.weaken (fun _ after held => ?_) fun _ _ never => never.elim).halts fun maps => ?_)))
  · refine .bind (.bind (.gets (.assert (fun armed => .modify ⟨on, some_left, armed, frame, ?_, ?_⟩)
      fun unarmed => ⟨on, .inr (.inr unarmed)⟩)))
    · exact .of_put tables is_root own at_slot took.was small filled held.1
    · dsimp only at held ⊢
      rw [held.1]
      refine (Function.update_of_ne apart _ _).trans (Function.update_self _ _ _)
  · rw [same_word] at maps
    exact ⟨on, .inr (.inl maps)⟩

theorem Filled.behind (ext : Extended vm mid role role') (is_root : role root = .root)
    (filled : Filled mid after role' root page frame perm) : Filled vm after role root page frame perm := by
  refine ⟨?_, fun other own => ?_, fun other is_other => ?_⟩
  · by_contra used
    have still := filled.fresh
    rw [ext.kept frame used] at still
    exact used still
  · rw [filled.looks other own, ext.looks root other is_root own]
  · have is_other' : role' other = .other := by rw [ext.kept other (by rw [is_other]; exact Role.noConfusion), is_other]
    rw [filled.kept other is_other', (ext.data other (.inl is_other')).1]

/-! ## The promise -/

/-- A page below `USERTOP`. -/
def UserPage (page : Nat) : Prop := page < usertop / pgsize

theorem UserPage.own (user : UserPage page) : Own page := by
  have last : usertop / pgsize ≤ 511 * (512 * 512) := by decide
  unfold UserPage at user
  unfold Own
  omega

/-- No user page of the mm has another entry, frame or content, and the device is as it was. -/
structure Kept (state after : Faulting) : Prop where
  entries : ∀ page, UserPage page → entryAt after.vm state.pgdir page = entryAt state.vm state.pgdir page
  frames : ∀ page, UserPage page → ∀ entry, look state.vm state.pgdir page = some entry →
    after.vm.mem (ppn entry) = state.vm.mem (ppn entry)
  swapfs : after.swapfs = state.swapfs

/-- Memory does not suffice for the page and the tables on the way to it. -/
def Short (state : Faulting) (page : Nat) : Prop := spare state.vm < missing state.vm state.pgdir page + 1

/-- User pages are mapped to frames that are neither free nor tables. -/
def Backed (state : Faulting) (role : Nat → Role) : Prop :=
  ∀ page, UserPage page → ∀ entry, look state.vm state.pgdir page = some entry → role (ppn entry) = .other

theorem Kept.behind (ext : Extended state.vm mid role role') (same : SameEntries state.vm mid role)
    (is_root : role state.pgdir = .root) (backed : Backed state role) : Kept state { state with vm := mid } := by
  refine ⟨fun page user => same _ page is_root user.own, fun page user entry found => ?_, rfl⟩
  have is_other := backed page user entry found
  exact (ext.data _ (.inl (by rw [ext.kept _ (by rw [is_other]; exact Role.noConfusion), is_other]))).1

theorem faultPage_settles (tables : Tables state.vm role) (is_root : role state.pgdir = .root) (backed : Backed state role)
    (own : Own (pageOf la)) (small : perm < 1024) :
    Settles (faultPage state.pgdir la perm)
      (fun _ after => ¬ Short state (pageOf la) ∧
        (entryAt state.vm state.pgdir (pageOf la) ≠ 0 → state.vm.swapInitOk = true ∧ state.smPriv = true) ∧
        ∃ frame, Filled state.vm after.vm role state.pgdir (pageOf la) frame perm ∧
          (entryAt state.vm state.pgdir (pageOf la) ≠ 0 →
            after.vm.mem frame = slotWords state (entryAt state.vm state.pgdir (pageOf la))))
      (fun ret after => ret = -eNoMem ∧ state.vm.swapInitOk = false ∧
        (Short state (pageOf la) ∨ entryAt state.vm state.pgdir (pageOf la) ≠ 0) ∧ Kept state after)
      (state.vm.swapInitOk = true ∧ (Short state (pageOf la) ∨ entryAt state.vm state.pgdir (pageOf la) ≠ 0 ∧
        (valid (entryAt state.vm state.pgdir (pageOf la)) = true ∨ state.smPriv = false))) state := by
  have grown : Settles (getPte state.pgdir la true) _ (fun _ _ => False)
      (spare state.vm < missing state.vm state.pgdir (pageOf la) ∧ state.vm.swapInitOk = true) state.vm :=
    getPte_create tables is_root own fun short on => ⟨short, on⟩
  have still : Settles (getPte state.pgdir la true) _ (fun _ _ => False) True state.vm :=
    getPte_entries tables is_root own
  have walk := grown.and still
  refine .bind (.within ((walk.weaken (fun found mid held => ?_) fun _ _ never => never.1.elim).halts fun stopped => ?_))
  swap
  · refine ⟨stopped.1.2, .inl ?_⟩
    have less := stopped.1.1
    unfold Short
    omega
  obtain ⟨⟨⟨role', ext⟩, failed, there⟩, same, refused⟩ := held
  have kept := Kept.behind ext same is_root backed
  cases found with
  | none =>
    refine .fail ⟨rfl, refused rfl, .inl ?_, kept⟩
    have less := failed rfl
    unfold Short
    omega
  | some slot =>
    obtain ⟨at_slot, used⟩ := there slot rfl
    have is_root' := extended_root ext is_root
    have word : entryAt state.vm state.pgdir (pageOf la) = mid.mem slot.1 slot.2 := by
      rw [← same _ _ is_root own, entryAt_slot at_slot]
    have short_iff : Short state (pageOf la) ↔ spare mid = 0 := by
      unfold Short
      omega
    rw [word, short_iff]
    refine .bind (.within (.gets ?_))
    split
    · rename_i blank
      have unmapped : valid (mid.mem slot.1 slot.2) = false := by
        have blank' : mid.mem slot.1 slot.2 = 0 := blank
        rw [blank']
        rfl
      have taken : Settles (pgdirAllocPage state.pgdir la perm) _ (fun _ _ => False) _ mid :=
        pgdirAllocPage_settles ext.tables is_root' own at_slot unmapped small
      refine .bind (.within ((taken.weaken (fun made after held => ?_) fun _ _ never => never.elim).halts
        fun full => ⟨ext.config.1 ▸ full.2, .inl full.1⟩))
      cases made with
      | none =>
        obtain ⟨rfl, empty, off⟩ := held.1 rfl
        exact .fail ⟨rfl, ext.config.1 ▸ off, .inl empty, kept⟩
      | some frame =>
        obtain ⟨some_left, filled⟩ := held.2 frame rfl
        refine .pure ⟨some_left, fun filled => absurd blank filled, frame, filled.behind ext is_root, fun filled => absurd blank filled⟩
    · rename_i filled
      have swapped := @faultSwapped_settles role' la perm slot { state with vm := mid } ext.tables is_root' own at_slot small
      refine (swapped.weaken (fun _ after held => ?_) fun ret after held => ?_).halts fun stopped => ?_
      · obtain ⟨on, some_left, armed, frame, filled', words⟩ := held
        exact ⟨some_left, fun _ => ⟨ext.config.1 ▸ on, armed⟩, frame, filled'.behind ext is_root, fun _ => words⟩
      · obtain ⟨rfl, rfl, off⟩ := held
        exact ⟨rfl, ext.config.1 ▸ off, .inr filled, kept⟩
      · obtain ⟨on, why⟩ := stopped
        exact ⟨ext.config.1 ▸ on, why.imp_right fun why => ⟨filled, why⟩⟩

inductive Access where
  | fetch
  | read
  | write
  deriving DecidableEq

/-- The cause that the processor gives for a page fault. -/
def Access.cause : Access → Nat
  | fetch => 12
  | read => 13
  | write => 15

def Permits (vma : Vma) : Access → Bool
  | .fetch => vma.vmFlags.exec
  | .read => vma.vmFlags.read
  | .write => vma.vmFlags.write

/-- The bits of an entry with the permissions of a vma, as `load_icode` maps them: a page that can be
written can be read. -/
def rights (vma : Vma) : Nat :=
  pteU ||| pteV ||| (if vma.vmFlags.read then pteR else 0) ||| (if vma.vmFlags.write then pteW ||| pteR else 0) |||
    (if vma.vmFlags.exec then pteX else 0)

/-- The page has an entry with the permissions of its vma, and what was swapped out is back; the pages
that were there have their frames and contents. -/
structure Served (state after : Faulting) (vma : Vma) (page : Nat) : Prop where
  mapped : ∃ entry, look after.vm state.pgdir page = some entry ∧ pteUser entry = rights vma ∧
    (entryAt state.vm state.pgdir page ≠ 0 → valid (entryAt state.vm state.pgdir page) = false →
      after.vm.mem (ppn entry) = slotWords state (entryAt state.vm state.pgdir page))
  present : ∀ other, UserPage other → ∀ old, look state.vm state.pgdir other = some old →
    ∃ entry, look after.vm state.pgdir other = some entry ∧ ppn entry = ppn old ∧
      after.vm.mem (ppn entry) = state.vm.mem (ppn old)

/-- No vma permits the access, or memory does not suffice. -/
def Refusable (state : Faulting) (access : Access) (addr : Nat) : Prop :=
  (∀ vma ∈ state.mm.mmapList, vma.holds addr → Permits vma access = false) ∨ Short state (addr / pgsize)

/-- The handler comes back, with 0 and the page or with an error and nothing changed. -/
def Contract (state : Faulting) (access : Access) (addr : Nat) : Prop :=
  ∃ outcome after, doPgfault access.cause addr state = some (outcome, after) ∧
    match outcome with
    | .ok () => ∃ vma ∈ state.mm.mmapList, vma.holds addr ∧ Permits vma access = true ∧
        Served state after vma (addr / pgsize)
    | .error ret => ret < 0 ∧ Refusable state access addr ∧ Kept state after

/-- The permissions that the handler gives are those of the vma, and enough. -/
def Granted (vma : Vma) (access : Access) : Prop :=
  vma.vmFlags.write = true ∧ vma.vmFlags.exec = false ∧ Permits vma access = true

/-- The page was not there and its vma can be written but not executed; without the swap manager,
memory may be short too, or the access forbidden to a page that is there. -/
def Meets (state : Faulting) (access : Access) (addr : Nat) : Prop :=
  ∀ vma ∈ state.mm.mmapList, vma.holds addr →
    if state.vm.swapInitOk then
      ¬ Short state (addr / pgsize) ∧ Granted vma access ∧ (entryAt state.vm state.pgdir (addr / pgsize) ≠ 0 →
        valid (entryAt state.vm state.pgdir (addr / pgsize)) = false ∧ state.smPriv = true)
    else Short state (addr / pgsize) ∨
      if entryAt state.vm state.pgdir (addr / pgsize) = 0 then Granted vma access else Permits vma access = false

/-- An mm of the system that is up: its directory is one of the page tables' and its vmas are ranges of
user pages. Pages of devices are mapped to frames below the memory. -/
structure Lawful (state : Faulting) (roots : Finset Nat) (kernel : Nat → Prop) : Prop where
  memory : Paging.Lawful state.vm roots kernel
  member : state.pgdir ∈ roots
  devices : ∀ page, UserPage page → ¬ Plain page → ∀ entry, look state.vm state.pgdir page = some entry → ppn entry < nbase
  wellformed : Wellformed state.mm
  user : ∀ vma ∈ state.mm.mmapList, vma.vmEnd ≤ usertop

theorem Lawful.backed {roots : Finset Nat} {kernel : Nat → Prop} (lawful : Lawful state roots kernel) :
    ∃ role, Tables state.vm role ∧ role state.pgdir = .root ∧ Backed state role := by
  obtain ⟨role, tables, is_root⟩ := lawful.memory.trees
  refine ⟨role, tables, (is_root _).mpr lawful.member, fun page user entry found => ?_⟩
  by_cases plain : Plain page
  · exact ((dataPage_iff tables is_root).mp (lawful.memory.mapped _ lawful.member page plain entry found)).1
  · by_contra used
    have inside := tables.inside _ used
    have below := lawful.devices page user plain entry found
    omega

theorem faultPerm_small (vma : Vma) : faultPerm vma < 1024 := by
  unfold faultPerm
  split <;> decide

/-- The handler's permissions are those of the vma where it can be written but not executed. -/
theorem rights_iff {vma : Vma} {access : Access} :
    pteUser (mapping frame (faultPerm vma)) = rights vma ∧ Permits vma access = true ↔ Granted vma access := by
  have bits : pteUser (mapping frame (faultPerm vma)) = (pteV ||| (pteV ||| faultPerm vma)) % 32 := by
    have low := @pteCreate_mod frame _ (perm_small (faultPerm_small vma))
    rw [← low, pteUser, mapping]
    omega
  rw [bits]
  obtain ⟨_, _, ⟨read, write, exec, _⟩⟩ := vma
  cases access <;> cases read <;> cases write <;> cases exec <;>
    simp [faultPerm, rights, Permits, Granted, readWrite, pteU, pteV, pteR, pteW, pteX]

theorem served_iff {vma : Vma} {access : Access} {after : Faulting} {role : Nat → Role}
    (backed : Backed state role) (user : UserPage page)
    (filled : Filled state.vm after.vm role state.pgdir page frame (faultPerm vma))
    (words : entryAt state.vm state.pgdir page ≠ 0 → after.vm.mem frame = slotWords state (entryAt state.vm state.pgdir page)) :
    Permits vma access = true ∧ Served state after vma page ↔
      Granted vma access ∧ valid (entryAt state.vm state.pgdir page) = false := by
  have here : look after.vm state.pgdir page = some (mapping frame (faultPerm vma)) := by
    rw [filled.looks page user.own, if_pos rfl]
  constructor
  · rintro ⟨permits, served⟩
    obtain ⟨entry, found, same, _⟩ := served.mapped
    rw [here] at found
    obtain rfl := Option.some.inj found
    refine ⟨rights_iff.mp ⟨same, permits⟩, ?_⟩
    -- a page that was there would have lost its frame
    by_contra present
    have present : valid (entryAt state.vm state.pgdir page) = true := by simpa using present
    have old : look state.vm state.pgdir page = some (entryAt state.vm state.pgdir page) := by
      rw [look_entryAt, if_pos present]
    obtain ⟨entry, found, same_frame, _⟩ := served.present page user _ old
    rw [here] at found
    obtain rfl := Option.some.inj found
    have other := backed page user _ old
    rw [← same_frame, ppn_mapping (faultPerm_small vma), filled.fresh] at other
    cases other
  · rintro ⟨granted, absent⟩
    obtain ⟨same, permits⟩ := rights_iff.mpr granted
    refine ⟨permits, ⟨_, here, same, fun swapped _ => ?_⟩, fun other user' old found => ?_⟩
    · rw [ppn_mapping (faultPerm_small vma), words swapped]
    · refine ⟨old, ?_, rfl, filled.kept _ (backed other user' old found)⟩
      rw [filled.looks other user'.own, if_neg, found]
      rintro rfl
      obtain ⟨rfl, present⟩ := look_some found
      rw [absent] at present
      cases present

theorem pageOf_rounddown {addr : Nat} (below : addr < usertop) : pageOf (rounddown addr pgsize) = addr / pgsize := by
  have low : rounddown addr pgsize < usertop := lt_of_le_of_lt (Nat.sub_le _ _) below
  rw [pageOf_user low]
  simp only [rounddown, pgsize]
  omega

/-- Every outcome keeps the promise exactly under the condition, and it does not stop there. -/
theorem doPgfault_settles {roots : Finset Nat} {kernel : Nat → Prop} (lawful : Lawful state roots kernel) (access : Access)
    (addr : Nat) : Settles (doPgfault access.cause addr)
      (fun _ after => (∃ vma ∈ state.mm.mmapList, vma.holds addr ∧ Permits vma access = true ∧
        Served state after vma (addr / pgsize)) ↔ Meets state access addr)
      (fun ret after => (ret < 0 ∧ Refusable state access addr ∧ Kept state after) ↔ Meets state access addr)
      (¬ Meets state access addr) state := by
  obtain ⟨role, tables, is_root, backed⟩ := lawful.backed
  refine .bind (.gets ?_)
  by_cases held : ∃ vma ∈ state.mm.mmapList, vma.holds addr
  swap
  · have nobody : ∀ vma ∈ state.mm.mmapList, ¬ vma.holds addr := fun vma member holds => held ⟨vma, member, holds⟩
    rw [findVma_none lawful.wellformed nobody]
    refine .bind (.modify (.fail (iff_of_true ⟨by decide, .inl fun vma member holds => absurd holds (nobody vma member), ?_⟩
      fun vma member holds => absurd holds (nobody vma member))))
    exact ⟨fun _ _ => rfl, fun _ _ _ _ => rfl, rfl⟩
  obtain ⟨vma, member, holds⟩ := held
  obtain ⟨cached, found, _⟩ := findVma_some lawful.wellformed member holds
  have inside := holds_iff.mp holds
  have below : addr < usertop := lt_of_lt_of_le inside.2 (lawful.user vma member)
  have user : UserPage (addr / pgsize) := Nat.div_lt_of_lt_mul below
  have only : ∀ other ∈ state.mm.mmapList, other.holds addr → other = vma := fun other others otherHolds =>
    lawful.wellformed.unique others member otherHolds holds
  rw [found]
  refine .bind (.modify ?_)
  dsimp only
  rw [if_neg (by omega)]
  have at_page := pageOf_rounddown below
  have page := @faultPage_settles role (rounddown addr pgsize) (faultPerm vma)
    { state with mm := cached, pgfaultNum := (state.pgfaultNum + 1) % 2 ^ 32 } tables is_root backed
    (at_page ▸ user.own) (faultPerm_small vma)
  rw [at_page] at page
  have meets : Meets state access addr ↔ if state.vm.swapInitOk then
      ¬ Short state (addr / pgsize) ∧ Granted vma access ∧ (entryAt state.vm state.pgdir (addr / pgsize) ≠ 0 →
        valid (entryAt state.vm state.pgdir (addr / pgsize)) = false ∧ state.smPriv = true)
    else Short state (addr / pgsize) ∨
      if entryAt state.vm state.pgdir (addr / pgsize) = 0 then Granted vma access else Permits vma access = false := by
    refine ⟨fun meets => meets vma member holds, fun meets other others otherHolds => ?_⟩
    rwa [only other others otherHolds]
  rw [meets]
  refine (page.weaken (fun _ after held => ?_) fun ret after held => ?_).halts fun stopped => ?_
  · obtain ⟨enough, set_up, frame, filled, words⟩ := held
    have served := @served_iff _ frame state vma access after role backed user filled words
    have one : (∃ other ∈ state.mm.mmapList, other.holds addr ∧ Permits other access = true ∧
        Served state after other (addr / pgsize)) ↔
        Granted vma access ∧ valid (entryAt state.vm state.pgdir (addr / pgsize)) = false := by
      rw [← served]
      refine ⟨?_, fun both => ⟨vma, member, holds, both⟩⟩
      rintro ⟨other, others, otherHolds, both⟩
      rwa [only other others otherHolds] at both
    rw [one]
    by_cases blank : entryAt state.vm state.pgdir (addr / pgsize) = 0
    · have absent : valid (entryAt state.vm state.pgdir (addr / pgsize)) = false := by
        rw [blank]
        rfl
      rw [if_pos blank]
      split
      · exact ⟨fun both => ⟨enough, both.1, fun filled => absurd blank filled⟩, fun all => ⟨all.2.1, absent⟩⟩
      · exact ⟨fun both => .inr both.1, fun either => ⟨either.resolve_left enough, absent⟩⟩
    · obtain ⟨on, armed⟩ := set_up blank
      rw [if_pos on]
      exact ⟨fun both => ⟨enough, both.1, fun _ => ⟨both.2, armed⟩⟩, fun all => ⟨all.2.1, (all.2.2 blank).1⟩⟩
  · obtain ⟨rfl, off, why, kept⟩ := held
    have off' : ¬ state.vm.swapInitOk = true := by
      rw [off]
      decide
    have kept' : Kept state after := ⟨kept.entries, kept.frames, kept.swapfs⟩
    rw [if_neg off']
    constructor
    · rintro ⟨_, refused | short, _⟩
      · refine why.imp_right fun blank => ?_
        rw [if_neg blank]
        exact refused vma member holds
      · exact .inl short
    · intro meets
      refine ⟨by decide, ?_, kept'⟩
      rcases why with short | blank
      · exact .inr short
      · rw [if_neg blank] at meets
        refine meets.symm.imp_left fun refused other others otherHolds => ?_
        rwa [only other others otherHolds]
  · obtain ⟨on, why⟩ := stopped
    rw [if_pos on]
    rintro ⟨enough, _, absent⟩
    rcases why with short | ⟨blank, present | unarmed⟩
    · exact enough short
    · rw [(absent blank).1] at present
      cases present
    · rw [(absent blank).2] at unarmed
      cases unarmed

/-- The handler keeps its promise exactly where the page was not there and its vma can be written but
not executed. -/
theorem do_pgfault_contract_iff (state : Faulting) (roots : Finset Nat) (kernel : Nat → Prop) (access : Access) (addr : Nat)
    (lawful : Lawful state roots kernel) : Contract state access addr ↔ Meets state access addr := by
  have settles := doPgfault_settles lawful access addr
  constructor
  · rintro ⟨outcome, after, ran, held⟩
    cases outcome with
    | ok value => exact (settles.returns value after ran).mp held
    | error ret => exact (settles.fails ret after ran).mp held
  · intro meets
    cases ran : doPgfault access.cause addr state with
    | none => exact absurd meets (settles.stops ran)
    | some reached =>
      obtain ⟨outcome, after⟩ := reached
      refine ⟨outcome, after, ran, ?_⟩
      cases outcome with
      | ok value => exact (settles.returns value after ran).mpr meets
      | error ret => exact (settles.fails ret after ran).mpr meets

/-- A program that uses a page of its stack for the first time. -/
def stackFault : Faulting where
  vm := blankVm 2
  mm := ⟨[⟨0x7ff00000, 0x7ff01000, ⟨true, true, false, true⟩⟩], none⟩
  pgdir := nbase
  smPriv := false
  praVaddr _ := 0
  swapfs _ _ := 0
  maxSwapOffset := 7
  pgfaultNum := 0

theorem stackFault_lawful : Lawful stackFault {nbase} fun _ => False := by
  have lawful : Paging.Lawful (blankVm 2) {nbase} fun _ => False := by
    apply blankVm_lawful (by decide)
    decide
  refine ⟨lawful, Finset.mem_singleton_self _, fun page _ _ entry found => ?_, ⟨?_, ?_, ?_, by simp [stackFault]⟩, ?_⟩
  · rw [show stackFault.vm = blankVm 2 from rfl, show stackFault.pgdir = nbase from rfl, blankVm, blank_look] at found
    cases found
  all_goals simp [stackFault, pgsize, usertop]

theorem do_pgfault_contract_stack : Contract stackFault .write 0x7ff00010 := by
  apply (do_pgfault_contract_iff stackFault {nbase} (fun _ => False) .write 0x7ff00010 stackFault_lawful).mpr
  intro vma member _
  have blank : entryAt stackFault.vm stackFault.pgdir (0x7ff00010 / pgsize) = 0 := by
    rw [entryAt, slotOf_absent (child_blank fun _ _ => rfl)]
    rfl
  obtain rfl := List.mem_singleton.mp member
  rw [if_neg (by decide), if_pos blank]
  exact .inr ⟨rfl, rfl, rfl⟩

/-- An mm with a page of code. -/
def codePage : Mm := ⟨[⟨0x800000, 0x801000, ⟨true, false, true, false⟩⟩], none⟩

/-- A program with a page of code in the frame `nbase + 3`, after the swap manager is set up. -/
def codeFault : Faulting where
  vm :=
    { pmm := fun frame => decide (nbase + 4 ≤ frame ∧ frame < npage)
      ref := fun frame => if nbase + 1 ≤ frame ∧ frame ≤ nbase + 3 then 1 else 0
      mem := fun frame index =>
        if frame = nbase ∧ index = 0 then pteCreate (nbase + 1) pteV
        else if frame = nbase + 1 ∧ index = 4 then pteCreate (nbase + 2) pteV
        else if frame = nbase + 2 ∧ index = 0 then pteCreate (nbase + 3) (pteU ||| pteR ||| pteX)
        else 0
      swapInitOk := true
      bootPgdir := 0
      room := fun _ => true }
  mm := codePage
  pgdir := nbase
  smPriv := true
  praVaddr _ := 0
  swapfs _ _ := 0
  maxSwapOffset := 7
  pgfaultNum := 0

/-- A write to the code is served, and a page of the swap device is in the place of the code. -/
theorem written_code_replaced : (look codeFault.vm nbase 0x800).map ppn = some (nbase + 3) ∧
    (∃ after, Returns (doPgfault Access.write.cause 0x800000) codeFault () after ∧
      (look after.vm nbase 0x800).map ppn = some (nbase + 4)) ∧
    ¬ Contract codeFault .write 0x800000 := by
  obtain ⟨after, ran, seen⟩ : ∃ after, Returns (doPgfault Access.write.cause 0x800000) codeFault () after ∧
      (look after.vm nbase 0x800).map ppn = some (nbase + 4) :=
    exists_returns (fun after : Faulting => (look after.vm nbase 0x800).map ppn) (by decide +kernel)
  refine ⟨by decide +kernel, ⟨after, ran, seen⟩, ?_⟩
  rintro ⟨outcome, reached, returned, held⟩
  rw [Returns] at ran
  rw [ran] at returned
  cases returned
  obtain ⟨vma, member, -, permits, -⟩ := held
  obtain rfl := List.mem_singleton.mp member
  cases permits

end Ucore.PageFaultProofs
