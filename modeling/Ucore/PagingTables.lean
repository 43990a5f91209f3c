import Ucore.PageManager

/-! The page tables in memory. Each frame has a role: free, a page directory, a
table below a certain entry, or anything else. The roles keep the tables of all
address spaces apart, so that an entry belongs to one page of one space. -/
namespace Ucore.Paging
open Call

inductive Role where
  | free
  | root
  | table (level parent index : Nat)
  | other
  deriving DecidableEq

/-- A page directory is a table of level 2; those of level 0 have the pages. -/
def Level (role : Nat → Role) (frame : Nat) : Nat → Prop
  | 2 => role frame = .root
  | n => ∃ parent index, role frame = .table n parent index

/-- The last entry of a page directory is the kernel's. -/
def width (level : Nat) : Nat := if level = 2 then 511 else 512

variable {α : Type}

/-- The frame below an entry. -/
def child (vm : Memory α) (table index : Nat) : Option Nat :=
  if valid (vm.mem table index) then some (ppn (vm.mem table index)) else none

structure Tables [ManagedPages α] (vm : Memory α) (role : Nat → Role) : Prop where
  free : ∀ frame, role frame = .free ↔ vm.free frame = true
  inside : ∀ frame, role frame ≠ .other → nbase ≤ frame ∧ frame < npage
  down : ∀ table n index, Level role table (n + 1) → index < width (n + 1) →
    ∀ frame, child vm table index = some frame ↔ role frame = .table n table index
  up : ∀ frame n table index, role frame = .table n table index →
    n < 2 ∧ Level role table (n + 1) ∧ index < width (n + 1)
  ordered : ManagedPages.Ordered vm.pmm

/-! ## Pages of a space -/

/-- Where the entry of a page is. -/
def slotOf (vm : Memory α) (pgdir page : Nat) : Option (Nat × Nat) :=
  (child vm pgdir (page / 512 / 512 % 512)).bind fun table =>
    (child vm table (page / 512 % 512)).map fun leaf => (leaf, page % 512)

/-- The entry that maps a page, if there is one. -/
def look (vm : Memory α) (pgdir page : Nat) : Option Nat :=
  (slotOf vm pgdir page).bind fun slot =>
    if valid (vm.mem slot.1 slot.2) then some (vm.mem slot.1 slot.2) else none

variable {vm after : Memory α} {role role' : Nat → Role} {pgdir page frame table index la n entry : Nat}
  {create : Bool}

/-- The page of an address; the bits above the third index do not matter. -/
def pageOf (la : Nat) : Nat := la / pgsize % (512 * 512 * 512)

theorem pdx1_page (la : Nat) : pdx1 la = pageOf la / 512 / 512 % 512 := by
  simp only [pdx1, pageOf, pdsize, ptsize, pgsize]
  omega

theorem pdx0_page (la : Nat) : pdx0 la = pageOf la / 512 % 512 := by
  simp only [pdx0, pageOf, ptsize, pgsize]
  omega

theorem ptx_page (la : Nat) : ptx la = pageOf la % 512 := by
  simp only [ptx, pageOf, pgsize]
  omega

/-- A page that an address space has for itself. -/
def Own (page : Nat) : Prop := page < 511 * (512 * 512)

theorem Own.first (own : Own page) : page / 512 / 512 % 512 < width 2 := by
  change page / 512 / 512 % 512 < 511
  unfold Own at own
  omega

theorem Own.ext {page' : Nat} (own : Own page) (own' : Own page')
    (first : page / 512 / 512 % 512 = page' / 512 / 512 % 512) (second : page / 512 % 512 = page' / 512 % 512)
    (third : page % 512 = page' % 512) : page = page' := by
  simp only [Own] at *
  omega

/-! ## Entries on the way to a page -/

theorem child_congr (same : after.mem table index = vm.mem table index) : child after table index = child vm table index := by
  rw [child, child, same]

theorem look_congr (mem : after.mem = vm.mem) : look after pgdir page = look vm pgdir page := by
  simp only [look, slotOf, child, mem]

theorem slotOf_children {middle leaf : Nat} (first : child vm pgdir (pdx1 la) = some middle)
    (second : child vm middle (pdx0 la) = some leaf) : slotOf vm pgdir (pageOf la) = some (leaf, ptx la) := by
  rw [pdx1_page] at first
  rw [pdx0_page] at second
  rw [slotOf, first, Option.bind_some, second, ptx_page]
  rfl

theorem slotOf_absent (absent : child vm pgdir (page / 512 / 512 % 512) = none) : slotOf vm pgdir page = none := by
  rw [slotOf, absent, Option.bind_none]

theorem slotOf_below (first : child vm pgdir (page / 512 / 512 % 512) = some table) :
    slotOf vm pgdir page = none ↔ child vm table (page / 512 % 512) = none := by
  rw [slotOf, first, Option.bind_some, Option.map_eq_none_iff]

variable [LawfulManager α]

namespace Tables

/-- The tables on the way to a page. -/
theorem slot_roles (tables : Tables vm role) (root : role pgdir = .root) (own : Own page) {slot : Nat × Nat}
    (at_slot : slotOf vm pgdir page = some slot) :
    ∃ table, role table = .table 1 pgdir (page / 512 / 512 % 512) ∧
      role slot.1 = .table 0 table (page / 512 % 512) ∧ slot.2 = page % 512 := by
  obtain ⟨table, first, rest⟩ := Option.bind_eq_some_iff.mp at_slot
  obtain ⟨leaf, second, rfl⟩ := Option.map_eq_some_iff.mp rest
  have middle := (tables.down pgdir 1 _ root own.first table).mp first
  have low := (tables.down table 0 (page / 512 % 512) ⟨_, _, middle⟩ (Nat.mod_lt _ (by decide)) leaf).mp second
  exact ⟨table, middle, low, rfl⟩

/-- An entry belongs to one page of one space. -/
theorem slot_inj (tables : Tables vm role) {pgdir' page' : Nat} (root : role pgdir = .root)
    (root' : role pgdir' = .root) (own : Own page) (own' : Own page') {slot : Nat × Nat}
    (at_slot : slotOf vm pgdir page = some slot) (at_slot' : slotOf vm pgdir' page' = some slot) :
    pgdir = pgdir' ∧ page = page' := by
  obtain ⟨table, middle, low, last⟩ := tables.slot_roles root own at_slot
  obtain ⟨table', middle', low', last'⟩ := tables.slot_roles root' own' at_slot'
  rw [low] at low'
  injection low' with _ same_table second
  rw [← same_table, middle] at middle'
  injection middle' with _ same_pgdir first
  exact ⟨same_pgdir, own.ext own' first second (last.symm.trans last')⟩

end Tables

/-! ## Words -/

theorem pteCreate_eq {frame type : Nat} (small : type < 1024) :
    pteCreate frame type = frame * 1024 + (pteV ||| type) := by
  have flags : pteV ||| type < 2 ^ 10 := Nat.or_lt_two_pow (by decide) small
  rw [pteCreate, Nat.or_assoc, ← Nat.shiftLeft_add_eq_or_of_lt flags, Nat.shiftLeft_eq]

theorem ppn_pteCreate {type : Nat} (small : type < 1024) : ppn (pteCreate frame type) = frame := by
  have flags : pteV ||| type < 2 ^ 10 := Nat.or_lt_two_pow (by decide) small
  rw [ppn, pteCreate_eq small]
  omega

theorem pteCreate_mod {type : Nat} (small : type < 1024) : pteCreate frame type % 1024 = pteV ||| type := by
  have flags : pteV ||| type < 2 ^ 10 := Nat.or_lt_two_pow (by decide) small
  rw [pteCreate_eq small]
  omega

theorem valid_pteCreate {type : Nat} (small : type < 1024) : valid (pteCreate frame type) = true := by
  have odd : (pteV ||| type) % 2 = 1 := by
    rw [show 2 = 2 ^ 1 from rfl, Nat.or_mod_two_pow]
    rcases Nat.mod_two_eq_zero_or_one type with even | odd
    · rw [show 2 ^ 1 = 2 from rfl, even]
      rfl
    · rw [show 2 ^ 1 = 2 from rfl, odd]
      rfl
  have same : pteCreate frame type % 1024 = pteV ||| type := pteCreate_mod small
  rw [valid, decide_eq_true_eq]
  omega

/-! ## A new table -/

/-- A cleared page becomes the table below an entry. -/
def withTable (vm : Memory α) (pmm : α) (table index page : Nat) : Memory α :=
  { vm with
    pmm := pmm
    ref := Function.update vm.ref page 1
    mem := Function.update (Function.update vm.mem page fun _ => 0) table
      (Function.update (Function.update vm.mem page (fun _ => 0) table) index
        (pteCreate page (pteU ||| pteV))) }

/-- The tables of a state and more; the pages are mapped as before. -/
structure Extended (vm after : Memory α) (role role' : Nat → Role) : Prop where
  tables : Tables after role'
  kept : ∀ frame, role frame ≠ .free → role' frame = role frame
  fresh : ∀ frame, role frame = .free → role' frame = .free ∨ ∃ n table index, role' frame = .table n table index
  slots : ∀ pgdir page slot, role pgdir = .root → Own page → slotOf vm pgdir page = some slot →
    slotOf after pgdir page = some slot
  looks : ∀ pgdir page, role pgdir = .root → Own page → look after pgdir page = look vm pgdir page
  data : ∀ frame, role' frame = .other ∨ role' frame = .free →
    after.mem frame = vm.mem frame ∧ after.ref frame = vm.ref frame
  kernel : ∀ pgdir, role pgdir = .root → after.mem pgdir 511 = vm.mem pgdir 511
  config : after.swapInitOk = vm.swapInitOk ∧ after.bootPgdir = vm.bootPgdir

theorem Extended.refl (tables : Tables vm role) : Extended vm vm role role :=
  ⟨tables, fun _ _ => rfl, fun _ free => .inl free, fun _ _ _ _ _ at_slot => at_slot, fun _ _ _ _ => rfl,
    fun _ _ => ⟨rfl, rfl⟩, fun _ _ => rfl, rfl, rfl⟩

theorem Extended.trans {middle : Memory α} {role'' : Nat → Role} (first : Extended vm middle role role')
    (second : Extended middle after role' role'') : Extended vm after role role'' := by
  have busy : ∀ frame, role frame ≠ .free → role' frame ≠ .free := fun frame used => by
    rwa [first.kept frame used]
  have roots : ∀ pgdir, role pgdir = .root → role' pgdir = .root := fun pgdir root => by
    rw [first.kept pgdir (by rw [root]; exact Role.noConfusion), root]
  have plain : ∀ frame, role'' frame = .other ∨ role'' frame = .free → role' frame = .other ∨ role' frame = .free := by
    intro frame use
    by_cases free : role' frame = .free
    · exact .inr free
    · rwa [second.kept frame free] at use
  refine ⟨second.tables, fun frame used => ?_, fun frame free => ?_, fun pgdir page slot root own at_slot => ?_,
    fun pgdir page root own => ?_, fun frame use => ?_, fun pgdir root => ?_,
    second.config.1.trans first.config.1, second.config.2.trans first.config.2⟩
  · rw [second.kept frame (busy frame used), first.kept frame used]
  · rcases first.fresh frame free with still | ⟨n, table, index, taken⟩
    · exact second.fresh frame still
    · refine .inr ⟨n, table, index, ?_⟩
      rw [second.kept frame (by rw [taken]; exact Role.noConfusion), taken]
  · exact second.slots pgdir page slot (roots pgdir root) own (first.slots pgdir page slot root own at_slot)
  · rw [second.looks pgdir page (roots pgdir root) own, first.looks pgdir page root own]
  · obtain ⟨mem, ref⟩ := second.data frame use
    rw [mem, ref]
    exact first.data frame (plain frame use)
  · rw [second.kernel pgdir (roots pgdir root), first.kernel pgdir root]

theorem Level.not_free (level : Level role table n) : role table ≠ .free := by
  unfold Level at level
  split at level
  · rw [level]
    exact Role.noConfusion
  · obtain ⟨_, _, same⟩ := level
    rw [same]
    exact Role.noConfusion

theorem Level.not_other (level : Level role table n) : role table ≠ .other := by
  unfold Level at level
  split at level
  · rw [level]
    exact Role.noConfusion
  · obtain ⟨_, _, same⟩ := level
    rw [same]
    exact Role.noConfusion

/-- A frame has one level. -/
theorem Level.unique {m : Nat} (first : Level role table n) (second : Level role table m) : n = m := by
  unfold Level at first second
  split at first <;> split at second
  · rfl
  · obtain ⟨_, _, same⟩ := second
    rw [first] at same
    cases same
  · obtain ⟨_, _, same⟩ := first
    rw [second] at same
    cases same
  · obtain ⟨_, _, same⟩ := first
    obtain ⟨_, _, same'⟩ := second
    rw [same] at same'
    injection same'

theorem Level.congr (same : role' table = role table) : Level role' table n ↔ Level role table n := by
  unfold Level
  split <;> rw [same]

section
variable (tables : Tables vm role) (level : Level role table (n + 1)) {pmm : α} (took : Took vm.pmm pmm page)
include tables level took

theorem withTable_apart : table ≠ page := by
  rintro rfl
  exact level.not_free ((tables.free _).mpr took.was)

theorem withTable_mem (index frame i : Nat) : (withTable vm pmm table index page).mem frame i =
    if frame = table ∧ i = index then pteCreate page (pteU ||| pteV)
    else if frame = page then 0 else vm.mem frame i := by
  have apart := withTable_apart tables level took
  simp only [withTable]
  by_cases here : frame = table
  · rw [here, Function.update_self]
    by_cases at_index : i = index
    · rw [at_index, Function.update_self, if_pos ⟨rfl, rfl⟩]
    · rw [Function.update_of_ne at_index, Function.update_of_ne apart, if_neg (fun both => at_index both.2), if_neg apart]
  · rw [Function.update_of_ne here, if_neg (fun both => here both.1)]
    by_cases new : frame = page
    · rw [new, Function.update_self, if_pos rfl]
    · rw [Function.update_of_ne new, if_neg new]

theorem withTable_child (index frame i : Nat) : child (withTable vm pmm table index page) frame i =
    if frame = table ∧ i = index then some page else if frame = page then none else child vm frame i := by
  rw [child, withTable_mem tables level took]
  by_cases here : frame = table ∧ i = index
  · rw [if_pos here, if_pos here, if_pos (valid_pteCreate (by decide)), ppn_pteCreate (by decide)]
  · rw [if_neg here, if_neg here]
    by_cases new : frame = page
    · rw [if_pos new, if_pos new]
      rfl
    · rw [if_neg new, if_neg new, child]

variable (inside : index < width (n + 1)) (absent : child vm table index = none)
include inside absent

theorem withTable_tables :
    Tables (withTable vm pmm table index page) (Function.update role page (.table n table index)) := by
  have apart := withTable_apart tables level took
  have small : n < 2 := by
    rcases Nat.lt_or_ge n 2 with small | large
    · exact small
    · obtain ⟨_, _, same⟩ : ∃ p i, role table = .table (n + 1) p i := by
        obtain ⟨k, rfl⟩ : ∃ k, n = k + 2 := ⟨n - 2, by omega⟩
        exact level
      have bound := (tables.up _ _ _ _ same).1
      omega
  -- the tables there were, and the new one
  have levels : ∀ {frame k}, frame ≠ page →
      (Level (Function.update role page (.table n table index)) frame k ↔ Level role frame k) :=
    fun other => Level.congr (Function.update_of_ne other _ _)
  have new_level : ∀ {k}, Level (Function.update role page (.table n table index)) page k → k = n := by
    intro k level
    unfold Level at level
    split at level
    · rw [Function.update_self] at level
      cases level
    · obtain ⟨_, _, same⟩ := level
      rw [Function.update_self] at same
      injection same with same
      exact same.symm
  have left : (withTable vm pmm table index page).free = Function.update vm.free page false := took.left
  refine ⟨fun frame => ?_, fun frame used => ?_, fun t k i level' below frame => ?_, fun frame k t i is_table => ?_, took.ordered⟩
  · rw [left]
    by_cases new : frame = page
    · rw [new, Function.update_self, Function.update_self]
      exact iff_of_false Role.noConfusion Bool.noConfusion
    · rw [Function.update_of_ne new, Function.update_of_ne new, tables.free]
  · by_cases new : frame = page
    · rw [new]
      exact took.memory
    · rw [Function.update_of_ne new] at used
      exact tables.inside frame used
  · rw [withTable_child tables level took]
    by_cases of_new : t = page
    · subst of_new
      have same := new_level level'
      rw [if_neg (fun both => apart both.1.symm), if_pos rfl]
      constructor
      · intro never
        cases never
      · intro is_table
        by_cases new : frame = t
        · rw [new, Function.update_self] at is_table
          injection is_table with _ same
          exact absurd same apart
        · rw [Function.update_of_ne new] at is_table
          exact absurd ((tables.free t).mpr took.was) (tables.up _ _ _ _ is_table).2.1.not_free
    · rw [levels of_new] at level'
      have down := tables.down t k i level' below
      by_cases here : t = table ∧ i = index
      · obtain ⟨rfl, rfl⟩ := here
        obtain rfl : n = k := Nat.succ.inj (level.unique level')
        rw [if_pos ⟨rfl, rfl⟩]
        by_cases new : frame = page
        · rw [new, Function.update_self]
          simp only
        · rw [Function.update_of_ne new, ← down, absent]
          constructor
          · intro same
            exact absurd (Option.some.inj same).symm new
          · intro never
            cases never
      · rw [if_neg here, if_neg of_new, down]
        by_cases new : frame = page
        · rw [new, Function.update_self, (tables.free page).mpr took.was]
          constructor
          · intro never
            cases never
          · intro same
            injection same with _ same_table same_index
            exact absurd ⟨same_table.symm, same_index.symm⟩ here
        · rw [Function.update_of_ne new]
  · by_cases new : frame = page
    · rw [new, Function.update_self] at is_table
      injection is_table with same_level same_table same_index
      subst same_level same_table same_index
      exact ⟨small, (levels apart).mpr level, inside⟩
    · rw [Function.update_of_ne new] at is_table
      obtain ⟨low, level', below⟩ := tables.up frame k t i is_table
      have old : t ≠ page := by
        rintro rfl
        exact level'.not_free ((tables.free _).mpr took.was)
      exact ⟨low, (levels old).mpr level', below⟩

/-- The way to a page does not change but where it ended at the new table. -/
theorem withTable_extended :
    Extended vm (withTable vm pmm table index page) role (Function.update role page (.table n table index)) := by
  have apart := withTable_apart tables level took
  have mem := withTable_mem tables level took index
  have children := withTable_child tables level took index
  have new := (tables.free page).mpr took.was
  have not_new : ∀ {frame}, role frame ≠ .free → frame ≠ page := by
    rintro frame used rfl
    exact used new
  have old_child : ∀ {frame i f}, frame ≠ page → child vm frame i = some f →
      child (withTable vm pmm table index page) frame i = some f := by
    intro frame i f old found
    rw [children, if_neg, if_neg old, found]
    rintro ⟨rfl, rfl⟩
    rw [absent] at found
    cases found
  have slots : ∀ pgdir page' slot, role pgdir = .root → Own page' → slotOf vm pgdir page' = some slot →
      slotOf (withTable vm pmm table index page) pgdir page' = some slot := by
    intro pgdir page' slot root own at_slot
    obtain ⟨middle, first, rest⟩ := Option.bind_eq_some_iff.mp at_slot
    obtain ⟨leaf, second, rfl⟩ := Option.map_eq_some_iff.mp rest
    have in_middle := (tables.down pgdir 1 _ root own.first middle).mp first
    rw [slotOf, old_child (not_new (by rw [root]; exact Role.noConfusion)) first, Option.bind_some,
      old_child (not_new (by rw [in_middle]; exact Role.noConfusion)) second, Option.map_some]
  refine ⟨withTable_tables tables level took inside absent, fun frame used => ?_, fun frame is_free => ?_,
    slots, fun pgdir page' root own => ?_, fun frame use => ?_, fun pgdir root => ?_, rfl, rfl⟩
  · exact Function.update_of_ne (not_new used) _ _
  · by_cases this : frame = page
    · rw [this, Function.update_self]
      exact .inr ⟨n, table, index, rfl⟩
    · rw [Function.update_of_ne this]
      exact .inl is_free
  · cases at_slot : slotOf vm pgdir page' with
    | some slot =>
      obtain ⟨middle, _, low, _⟩ := tables.slot_roles root own at_slot
      have not_table : slot.1 ≠ table := by
        intro same
        rw [same] at low
        have zero := Level.unique level (show Level role table 0 from ⟨_, _, low⟩)
        omega
      have same : (withTable vm pmm table index page).mem slot.1 slot.2 = vm.mem slot.1 slot.2 := by
        rw [mem, if_neg fun both => not_table both.1, if_neg (not_new (by rw [low]; exact Role.noConfusion))]
      rw [look, look, at_slot, slots pgdir page' slot root own at_slot, Option.bind_some, Option.bind_some, same]
    | none =>
      -- the page gets a way at most to an entry that is 0
      have nowhere : look vm pgdir page' = none := by rw [look, at_slot, Option.bind_none]
      rw [nowhere, look, Option.bind_eq_none_iff]
      intro slot at_slot'
      obtain ⟨middle, first, rest⟩ := Option.bind_eq_some_iff.mp at_slot'
      obtain ⟨leaf, second, rfl⟩ := Option.map_eq_some_iff.mp rest
      rw [children] at first second
      split at second
      · rename_i here
        obtain rfl := Option.some.inj second
        have zero : (withTable vm pmm table index page).mem page (page' % 512) = 0 := by
          rw [mem, if_neg fun both => apart both.1.symm, if_pos rfl]
        rw [if_neg]
        rw [zero]
        decide
      split at second
      · cases second
      rename_i below_table of_new
      split at first
      · exact absurd (Option.some.inj first).symm of_new
      split at first
      · cases first
      · have found : slotOf vm pgdir page' = some (leaf, page' % 512) := by
          rw [slotOf, first, Option.bind_some, second, Option.map_some]
        rw [at_slot] at found
        cases found
  · have old : frame ≠ page := by
      rintro rfl
      rw [Function.update_self] at use
      rcases use with never | never <;> cases never
    rw [Function.update_of_ne old] at use
    rw [show (withTable vm pmm table index page).ref frame = vm.ref frame from Function.update_of_ne old _ _]
    refine ⟨funext fun i => ?_, rfl⟩
    rw [mem, if_neg, if_neg old]
    rintro ⟨rfl, rfl⟩
    rcases use with other | is_free
    · exact level.not_other other
    · exact level.not_free is_free
  · rw [mem, if_neg, if_neg (not_new (by rw [root]; exact Role.noConfusion))]
    rintro ⟨rfl, same⟩
    have two := Level.unique level (show Level role pgdir 2 from root)
    rw [← same, two] at inside
    exact absurd inside (by decide)

end

/-! ## Finding an entry -/

omit [LawfulManager α] in
/-- How many tables are made on the way to a page. -/
def missing (vm : Memory α) (pgdir page : Nat) : Nat :=
  (if child vm pgdir (page / 512 / 512 % 512) = none then 1 else 0) + if slotOf vm pgdir page = none then 1 else 0

section
variable {bad : Int → Memory α → Prop} {halt : Prop}

/-- What `get_pte` does at one level. -/
theorem makeTable_settles {post : Bool → Memory α → Prop} (ordered : ManagedPages.Ordered vm.pmm)
    (there : child vm table index ≠ none → post true vm)
    (refused : child vm table index = none → create = false → post false vm)
    (made : ∀ page pmm, child vm table index = none → create = true → Took vm.pmm pmm page →
      post true (withTable vm pmm table index page))
    (full : child vm table index = none → create = true → spare vm = 0 → vm.swapInitOk = false → post false vm)
    (out : child vm table index = none → create = true → spare vm = 0 → vm.swapInitOk = true → halt) :
    Settles (makeTable table index create) post bad halt vm := by
  refine .bind (.gets ?_)
  split
  · rename_i found
    refine .pure (there ?_)
    rw [child, if_pos found]
    exact fun never => by cases never
  rename_i missing
  have absent : child vm table index = none := if_neg missing
  split
  · rename_i not_create
    exact .pure (refused absent (by simpa using not_create))
  rename_i creates
  have creates : create = true := by simpa using creates
  refine .bind (allocPage_settles ordered (fun page pmm took => ?_) (fun empty off => ?_) fun empty on => ?_)
  · exact .bind (.modify (.bind (.modify (.bind (.modify (.pure (made page pmm absent creates took)))))))
  · exact .pure (full absent creates empty off)
  · exact out absent creates empty on

omit [LawfulManager α] in
theorem tableAt_settles {post : Nat → Memory α → Prop} (there : child vm table index ≠ none)
    (memory : ∀ frame, child vm table index = some frame → frame < npage)
    (held : ∀ frame, child vm table index = some frame → post frame vm) :
    Settles (tableAt table index) post bad halt vm := by
  have below : child vm table index = some (ppn (vm.mem table index)) := by
    unfold child at there ⊢
    split
    · rfl
    · rename_i missing
      exact absurd (if_neg missing) there
  refine .bind (.gets (.bind (.assert (fun _ => .pure (held _ below)) fun outside => ?_)))
  have inside := memory _ below
  exact absurd (decide_eq_false_iff_not.mp outside) (not_not.mpr inside)

theorem Tables.child_memory (tables : Tables vm role) (level : Level role table (n + 1))
    (inside : index < width (n + 1)) {frame : Nat} (below : child vm table index = some frame) :
    nbase ≤ frame ∧ frame < npage := by
  have in_table := (tables.down table n index level inside frame).mp below
  exact tables.inside frame (by rw [in_table]; exact Role.noConfusion)

theorem pdx0_below (la : Nat) : pdx0 la < width 1 := Nat.mod_lt _ (by decide)

theorem Own.pdx1 (own : Own (pageOf la)) : pdx1 la < width 2 := by
  rw [pdx1_page]
  exact own.first

/-- Looking an entry up changes nothing. -/
theorem getPte_lookup (tables : Tables vm role) (root : role pgdir = .root) (own : Own (pageOf la)) :
    Settles (getPte pgdir la false) (fun found after => found = slotOf vm pgdir (pageOf la) ∧ after = vm) bad halt vm := by
  have inside : pdx1 la < width 2 := own.pdx1
  rw [slotOf, ← pdx1_page, ← pdx0_page, ← ptx_page]
  refine .bind (makeTable_settles tables.ordered (fun there => ?_) (fun absent _ => ?_) (fun _ _ _ never => by cases never)
    (fun _ never => by cases never) fun _ never => by cases never)
  · refine .bind (tableAt_settles there (fun _ below => (tables.child_memory (n := 1) root inside below).2)
      fun middle first => ?_)
    have in_middle := (tables.down pgdir 1 _ root inside middle).mp first
    rw [first, Option.bind_some]
    refine .bind (makeTable_settles tables.ordered (fun there => ?_) (fun absent _ => ?_) (fun _ _ _ never => by cases never)
      (fun _ never => by cases never) fun _ never => by cases never)
    · refine .bind (tableAt_settles there (fun _ below => (tables.child_memory (n := 0) ⟨_, _, in_middle⟩
        (pdx0_below la) below).2) fun leaf second => .pure ⟨?_, rfl⟩)
      rw [second]
      rfl
    · refine .pure ⟨?_, rfl⟩
      rw [absent]
      rfl
  · refine .pure ⟨?_, rfl⟩
    rw [absent]
    rfl

/-- The table for an entry, with a new one if need be. -/
theorem makeTable_extended (tables : Tables vm role) (level : Level role table (n + 1))
    (inside : index < width (n + 1)) (out : child vm table index = none → spare vm = 0 → vm.swapInitOk = true → halt) :
    Settles (makeTable table index true)
      (fun made after => (∃ role', Extended vm after role role') ∧
        (made = false → child vm table index = none ∧ spare vm = 0) ∧ (made = true → child after table index ≠ none ∧
        spare after + (if child vm table index = none then 1 else 0) = spare vm ∧
        (child vm table index = none → ∀ frame i, child after table index = some frame → child after frame i = none) ∧
        (child vm table index ≠ none → after = vm)))
      bad halt vm := by
  refine makeTable_settles tables.ordered (fun there => ⟨⟨role, .refl tables⟩, nofun, fun _ =>
      ⟨there, ?_, fun absent => absurd absent there, fun _ => rfl⟩⟩)
    (fun _ never => by cases never) (fun page pmm absent _ took => ?_)
    (fun absent _ empty _ => ⟨⟨role, .refl tables⟩, fun _ => ⟨absent, empty⟩, fun never => by cases never⟩)
    fun absent _ => out absent
  · rw [if_neg there, Nat.add_zero]
  · have apart := withTable_apart tables level took
    refine ⟨⟨_, withTable_extended tables level took inside absent⟩, nofun, fun _ =>
      ⟨?_, ?_, fun _ frame i below => ?_, fun there => absurd absent there⟩⟩
    · rw [withTable_child tables level took, if_pos ⟨rfl, rfl⟩]
      exact fun never => by cases never
    · rw [if_pos absent]
      exact spare_taken took
    · rw [withTable_child tables level took, if_pos ⟨rfl, rfl⟩] at below
      obtain rfl := Option.some.inj below
      rw [withTable_child tables level took, if_neg fun both => apart both.1.symm, if_pos rfl]

/-- An entry that is looked up to be filled may need new tables. -/
theorem getPte_create (tables : Tables vm role) (root : role pgdir = .root) (own : Own (pageOf la))
    (out : spare vm < missing vm pgdir (pageOf la) → vm.swapInitOk = true → halt) :
    Settles (getPte pgdir la true) (fun found after => (∃ role', Extended vm after role role') ∧
      (found = none → spare vm < missing vm pgdir (pageOf la)) ∧
      ∀ slot, found = some slot → slotOf after pgdir (pageOf la) = some slot ∧
        spare after + missing vm pgdir (pageOf la) = spare vm) bad halt vm := by
  have inside : pdx1 la < width 2 := own.pdx1
  refine .bind ((makeTable_extended tables (show Level role pgdir 2 from root) inside fun absent empty on => ?_).weaken
    (fun made1 vm1 held => ?_) fun _ _ held => held)
  · rw [pdx1_page] at absent
    refine out ?_ on
    rw [missing, if_pos absent]
    omega
  obtain ⟨⟨role1, ext1⟩, short1, there1⟩ := held
  cases made1 with
  | false =>
    obtain ⟨absent, empty⟩ := short1 rfl
    refine .pure ⟨⟨role1, ext1⟩, fun _ => ?_, fun _ never => by cases never⟩
    rw [missing, ← pdx1_page, if_pos absent]
    omega
  | true =>
    obtain ⟨there, spare1, fresh, same⟩ := there1 rfl
    have root1 : role1 pgdir = .root := by rw [ext1.kept pgdir (by rw [root]; exact Role.noConfusion), root]
    refine .bind (tableAt_settles there (fun _ below => (ext1.tables.child_memory (n := 1) root1 inside below).2)
      fun middle first => ?_)
    have in_middle := (ext1.tables.down pgdir 1 _ root1 inside middle).mp first
    -- the first table is new and empty, or it is as before
    have next : slotOf vm pgdir (pageOf la) = none ↔ child vm1 middle (pdx0 la) = none := by
      by_cases absent : child vm pgdir (pdx1 la) = none
      · exact iff_of_true (slotOf_absent (by rw [← pdx1_page, absent])) (fresh absent middle (pdx0 la) first)
      · obtain rfl := same absent
        rw [slotOf_below (by rw [← pdx1_page, first]), pdx0_page]
    have count : missing vm pgdir (pageOf la) =
        (if child vm pgdir (pdx1 la) = none then 1 else 0) + if child vm1 middle (pdx0 la) = none then 1 else 0 := by
      rw [missing, ← pdx1_page]
      simp only [next]
    refine .bind ((makeTable_extended ext1.tables (show Level role1 middle 1 from ⟨_, _, in_middle⟩) (pdx0_below la)
      fun absent empty on => out ?_ (ext1.config.1.symm.trans on)).weaken (fun made0 vm2 held => ?_) fun _ _ held => held)
    · rw [count, if_pos absent]
      omega
    obtain ⟨⟨role2, ext2⟩, short2, there2⟩ := held
    have ext := ext1.trans ext2
    cases made0 with
    | false =>
      obtain ⟨absent, empty⟩ := short2 rfl
      refine .pure ⟨⟨role2, ext⟩, fun _ => ?_, fun _ never => by cases never⟩
      rw [count, if_pos absent]
      omega
    | true =>
      obtain ⟨there', spare2, _⟩ := there2 rfl
      have in_middle2 : role2 middle = .table 1 pgdir (pdx1 la) := by
        rw [ext2.kept middle (by rw [in_middle]; exact Role.noConfusion), in_middle]
      have root2 : role2 pgdir = .root := by rw [ext2.kept pgdir (by rw [root1]; exact Role.noConfusion), root1]
      refine .bind (tableAt_settles there' (fun _ below => (ext2.tables.child_memory (n := 0) ⟨_, _, in_middle2⟩
        (pdx0_below la) below).2) fun leaf second => .pure ⟨⟨role2, ext⟩, nofun, fun slot same => ?_⟩)
      obtain rfl := Option.some.inj same
      refine ⟨slotOf_children ((ext2.tables.down pgdir 1 _ root2 inside middle).mpr in_middle2) second, ?_⟩
      omega

end

/-! ## Writing entries, taking and giving pages -/

def IsTable (role : Nat → Role) (frame : Nat) : Prop :=
  role frame = .root ∨ ∃ n table index, role frame = .table n table index

theorem Level.isTable (level : Level role frame n) : IsTable role frame := by
  unfold Level at level
  split at level
  · exact .inl level
  · obtain ⟨table, index, same⟩ := level
    exact .inr ⟨_, table, index, same⟩

/-- Frames may change between free and other uses. -/
theorem Tables.transfer (tables : Tables vm role) (same : ∀ frame, IsTable role frame → role' frame = role frame)
    (only : ∀ frame, IsTable role' frame → IsTable role frame)
    (free : ∀ frame, role' frame = .free ↔ after.free frame = true)
    (inside : ∀ frame, role' frame = .free → nbase ≤ frame ∧ frame < npage)
    (mem : ∀ frame n, Level role frame (n + 1) → after.mem frame = vm.mem frame)
    (ordered : ManagedPages.Ordered after.pmm) : Tables after role' := by
  have levels : ∀ {frame n}, Level role' frame n ↔ Level role frame n := by
    intro frame n
    refine ⟨fun level => ?_, fun level => (Level.congr (same _ level.isTable)).mpr level⟩
    exact (Level.congr (same _ (only _ level.isTable))).mp level
  have is_table : ∀ {frame n t i}, role' frame = .table n t i ↔ role frame = .table n t i := by
    intro frame n t i
    constructor
    · intro here
      rw [← same frame (only frame (.inr ⟨_, _, _, here⟩)), here]
    · intro here
      rw [same frame (.inr ⟨_, _, _, here⟩), here]
  refine ⟨free, fun frame used => ?_, fun t n i level below frame => ?_, fun frame n t i here => ?_, ordered⟩
  · by_cases is_free : role' frame = .free
    · exact inside frame is_free
    · have table : IsTable role' frame := by
        cases at_frame : role' frame with
        | free => exact absurd at_frame is_free
        | root => exact .inl at_frame
        | table n t i => exact .inr ⟨n, t, i, at_frame⟩
        | other => exact absurd at_frame used
      rw [same frame (only frame table)] at used
      exact tables.inside frame used
  · rw [is_table, ← tables.down t n i (levels.mp level) below frame,
      child_congr (congrFun (mem t n (levels.mp level)) i)]
  · obtain ⟨low, level, below⟩ := tables.up frame n t i (is_table.mp here)
    exact ⟨low, levels.mpr level, below⟩

theorem Tables.congr (tables : Tables vm role) (pmm : after.pmm = vm.pmm) (mem : after.mem = vm.mem) :
    Tables after role := by
  refine tables.transfer (fun _ _ => rfl) (fun _ table => table) (fun frame => ?_) (fun frame is_free => ?_)
    (fun _ _ _ => by rw [mem]) (pmm ▸ tables.ordered)
  · rw [Memory.free, pmm]
    exact tables.free frame
  · exact tables.inside frame (by rw [is_free]; exact Role.noConfusion)

/-- Tables that are not written have the same pages. -/
theorem Tables.slotOf_same (tables : Tables vm role) (root : role pgdir = .root) (own : Own page)
    (mem : ∀ frame n, Level role frame (n + 1) → after.mem frame = vm.mem frame) :
    slotOf after pgdir page = slotOf vm pgdir page := by
  have top : child after pgdir (page / 512 / 512 % 512) = child vm pgdir (page / 512 / 512 % 512) :=
    child_congr (congrFun (mem pgdir 1 root) _)
  rw [slotOf, slotOf, top]
  cases first : child vm pgdir (page / 512 / 512 % 512) with
  | none => rfl
  | some middle =>
    have in_middle := (tables.down pgdir 1 _ root own.first middle).mp first
    have next : child after middle (page / 512 % 512) = child vm middle (page / 512 % 512) :=
      child_congr (congrFun (mem middle 0 ⟨_, _, in_middle⟩) _)
    rw [Option.bind_some, Option.bind_some, next]

theorem Tables.look_same (tables : Tables vm role) (root : role pgdir = .root) (own : Own page)
    (mem : ∀ frame, IsTable role frame → after.mem frame = vm.mem frame) :
    look after pgdir page = look vm pgdir page := by
  rw [look, look, tables.slotOf_same root own fun frame n level => mem frame level.isTable]
  cases at_slot : slotOf vm pgdir page with
  | none => rfl
  | some slot =>
    obtain ⟨middle, _, low, _⟩ := tables.slot_roles root own at_slot
    rw [Option.bind_some, Option.bind_some, mem slot.1 (.inr ⟨_, _, _, low⟩)]

omit [LawfulManager α] in
/-- What `store` leaves. -/
def putEntry (vm : Memory α) (slot : Nat × Nat) (word : Nat) : Memory α :=
  { vm with mem := Function.update vm.mem slot.1 (Function.update (vm.mem slot.1) slot.2 word) }

section
variable {slot : Nat × Nat} {word : Nat}

omit [LawfulManager α] in
theorem putEntry_here : (putEntry vm slot word).mem slot.1 slot.2 = word := by
  simp only [putEntry, Function.update_self]

omit [LawfulManager α] in
theorem putEntry_there {i : Nat} (differ : ¬ (frame = slot.1 ∧ i = slot.2)) :
    (putEntry vm slot word).mem frame i = vm.mem frame i := by
  simp only [putEntry]
  by_cases same : frame = slot.1
  · subst same
    rw [Function.update_self, Function.update_of_ne fun here => differ ⟨rfl, here⟩]
  · rw [Function.update_of_ne same]

theorem Tables.above_leaf (tables : Tables vm role) (root : role pgdir = .root) (own : Own page)
    (at_slot : slotOf vm pgdir page = some slot) (frame n : Nat) (level : Level role frame (n + 1)) :
    (putEntry vm slot word).mem frame = vm.mem frame := by
  obtain ⟨middle, _, low, _⟩ := tables.slot_roles root own at_slot
  refine Function.update_of_ne ?_ _ _
  rintro rfl
  have zero := level.unique (show Level role slot.1 0 from ⟨_, _, low⟩)
  omega

theorem Tables.put (tables : Tables vm role) (root : role pgdir = .root) (own : Own page)
    (at_slot : slotOf vm pgdir page = some slot) : Tables (putEntry vm slot word) role :=
  tables.transfer (fun _ _ => rfl) (fun _ table => table) tables.free
    (fun frame free => tables.inside frame (by rw [free]; exact Role.noConfusion))
    (tables.above_leaf root own at_slot) tables.ordered

theorem Tables.put_slot (tables : Tables vm role) (root : role pgdir = .root) (own : Own page)
    (at_slot : slotOf vm pgdir page = some slot) {pgdir' page' : Nat} (root' : role pgdir' = .root)
    (own' : Own page') : slotOf (putEntry vm slot word) pgdir' page' = slotOf vm pgdir' page' :=
  tables.slotOf_same root' own' (tables.above_leaf root own at_slot)

/-- An entry that is written maps its page anew, and no other. -/
theorem Tables.put_look (tables : Tables vm role) (root : role pgdir = .root) (own : Own page)
    (at_slot : slotOf vm pgdir page = some slot) {pgdir' page' : Nat} (root' : role pgdir' = .root)
    (own' : Own page') : look (putEntry vm slot word) pgdir' page' =
      if pgdir' = pgdir ∧ page' = page then (if valid word then some word else none) else look vm pgdir' page' := by
  rw [look, tables.put_slot root own at_slot root' own']
  by_cases here : pgdir' = pgdir ∧ page' = page
  · obtain ⟨rfl, rfl⟩ := here
    rw [if_pos ⟨rfl, rfl⟩, at_slot, Option.bind_some, putEntry_here]
  · rw [if_neg here, look]
    cases at_slot' : slotOf vm pgdir' page' with
    | none => rfl
    | some slot' =>
      have differ : ¬ (slot'.1 = slot.1 ∧ slot'.2 = slot.2) := by
        intro both
        rw [Prod.ext both.1 both.2] at at_slot'
        exact here (tables.slot_inj root' root own' own at_slot' at_slot)
      rw [Option.bind_some, Option.bind_some, putEntry_there differ]

end

theorem isTable_update {use : Role} (plain : ¬ IsTable role page) (unused : use = .free ∨ use = .other)
    (frame : Nat) : IsTable (Function.update role page use) frame ↔ IsTable role frame := by
  by_cases same : frame = page
  · subst same
    refine ⟨fun table => ?_, fun table => absurd table plain⟩
    unfold IsTable at table
    rw [Function.update_self] at table
    rcases unused with rfl | rfl
    · rcases table with never | ⟨_, _, _, never⟩ <;> cases never
    · rcases table with never | ⟨_, _, _, never⟩ <;> cases never
  · unfold IsTable
    rw [Function.update_of_ne same]

theorem Tables.recolor (tables : Tables vm role) {use : Role} (plain : ¬ IsTable role page)
    (unused : use = .free ∨ use = .other) (memory : nbase ≤ page ∧ page < npage)
    (free : after.free = Function.update vm.free page (decide (use = .free))) (mem : after.mem = vm.mem)
    (ordered : ManagedPages.Ordered after.pmm) :
    Tables after (Function.update role page use) := by
  refine tables.transfer (fun frame table => ?_) (fun frame table => (isTable_update plain unused frame).mp table)
    (fun frame => ?_) (fun frame is_free => ?_) (fun _ _ _ => by rw [mem]) ordered
  · refine Function.update_of_ne ?_ _ _
    rintro rfl
    exact plain table
  · rw [free]
    by_cases same : frame = page
    · rw [same, Function.update_self, Function.update_self, decide_eq_true_eq]
    · rw [Function.update_of_ne same, Function.update_of_ne same]
      exact tables.free frame
  · by_cases same : frame = page
    · rwa [same]
    · rw [Function.update_of_ne same] at is_free
      exact tables.inside frame (by rw [is_free]; exact Role.noConfusion)

end Ucore.Paging
