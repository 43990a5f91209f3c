import Ucore.PagingTables
import Ucore.Runs

/-! A page's reference count is the number of entries that map it. The entries
counted are those outside the I/O regions and the part of the kernel, which map
their frames without a reference. -/
namespace Ucore.Paging
open Call

/-- A page outside the I/O regions and the part of the kernel. -/
def Plain (page : Nat) : Prop :=
  Own page ∧ ∀ region ∈ ioRegions, page < region.1 / pgsize ∨ region.2 / pgsize ≤ page

instance : DecidablePred Plain := fun page => by
  unfold Plain Own
  infer_instance

variable {α : Type}

/-- The directories and pages whose entry maps a frame. -/
def mappers (vm : Memory α) (roots : Finset Nat) (frame : Nat) : Finset (Nat × Nat) :=
  (roots ×ˢ Finset.range (511 * (512 * 512))).filter fun place =>
    Plain place.2 ∧ (look vm place.1 place.2).map ppn = some frame

variable {vm middle after : Memory α} {role role' role'' : Nat → Role} {roots : Finset Nat} {kernel idle : Nat → Prop}
  {held : Nat → Nat} {root page frame new la perm entry : Nat} {slot : Nat × Nat}
  {bad : Int → Memory α → Prop} {halt : Prop}

theorem mem_mappers : (root, page) ∈ mappers vm roots frame ↔
    root ∈ roots ∧ Plain page ∧ ∃ entry, look vm root page = some entry ∧ ppn entry = frame := by
  rw [mappers, Finset.mem_filter, Finset.mem_product, Finset.mem_range, Option.map_eq_some_iff]
  constructor
  · rintro ⟨⟨member, _⟩, plain, mapped⟩
    exact ⟨member, plain, mapped⟩
  · rintro ⟨member, plain, mapped⟩
    exact ⟨⟨member, plain.1⟩, plain, mapped⟩

theorem mappers_congr
    (same : ∀ root ∈ roots, ∀ page, Plain page → look after root page = look vm root page) :
    mappers after roots = mappers vm roots := by
  funext frame
  ext ⟨root, page⟩
  rw [mem_mappers, mem_mappers]
  constructor
  · rintro ⟨member, plain, entry, found, at_frame⟩
    exact ⟨member, plain, entry, by rw [← same root member page plain, found], at_frame⟩
  · rintro ⟨member, plain, entry, found, at_frame⟩
    exact ⟨member, plain, entry, by rw [same root member page plain, found], at_frame⟩

/-- One entry is changed. -/
theorem mappers_changed {entry : Option Nat} (member : root ∈ roots) (plain : Plain page)
    (changed : ∀ root' ∈ roots, ∀ page', Plain page' →
      look after root' page' = if root' = root ∧ page' = page then entry else look vm root' page') (frame : Nat) :
    mappers after roots frame = if entry.map ppn = some frame then insert (root, page) (mappers vm roots frame)
      else (mappers vm roots frame).erase (root, page) := by
  ext ⟨root', page'⟩
  by_cases here : root' = root ∧ page' = page
  · obtain ⟨rfl, rfl⟩ := here
    rw [mem_mappers, changed root' member page' plain, if_pos ⟨rfl, rfl⟩]
    split
    · rename_i maps
      exact iff_of_true ⟨member, plain, Option.map_eq_some_iff.mp maps⟩ (Finset.mem_insert_self _ _)
    · rename_i other
      refine iff_of_false (fun mapped => other ?_) (Finset.notMem_erase _ _)
      exact Option.map_eq_some_iff.mpr mapped.2.2
  · have apart : (root', page') ≠ (root, page) := fun same => here (Prod.mk.inj same)
    have there : (root', page') ∈ mappers after roots frame ↔ (root', page') ∈ mappers vm roots frame := by
      rw [mem_mappers, mem_mappers]
      refine and_congr_right fun member' => and_congr_right fun plain' => ?_
      rw [changed root' member' page' plain', if_neg here]
    rw [there]
    split
    · rw [Finset.mem_insert]
      exact ⟨.inr, fun either => either.resolve_left apart⟩
    · rw [Finset.mem_erase]
      exact ⟨fun mapped => ⟨apart, mapped⟩, And.right⟩

/-! ## Counted references -/

variable [LawfulManager α]

/-- A frame for the data of pages: neither free nor a table nor the kernel's. -/
def DataFrame (role : Nat → Role) (kernel : Nat → Prop) (frame : Nat) : Prop :=
  role frame = .other ∧ ¬ kernel frame ∧ nbase ≤ frame ∧ frame < npage

/-- Each data frame has the references of its mappers and those that are `held` besides;
the `idle` ones are not mapped. -/
structure Counted (vm : Memory α) (roots : Finset Nat) (kernel idle : Nat → Prop) (held : Nat → Nat) (role : Nat → Role) :
    Prop where
  tables : Tables vm role
  rooted : ∀ root ∈ roots, role root = .root
  only : ∀ frame, role frame = .root → frame ∈ roots
  reserved : ∀ frame, kernel frame → role frame = .other
  mapped : ∀ root ∈ roots, ∀ page, Plain page → ∀ entry, look vm root page = some entry →
    DataFrame role kernel (ppn entry)
  counted : ∀ frame, nbase ≤ frame → frame < npage → ¬ IsTable role frame → ¬ kernel frame →
    vm.ref frame = (mappers vm roots frame).card + held frame
  unmapped : ∀ frame, idle frame ↔ DataFrame role kernel frame ∧ mappers vm roots frame = ∅

namespace Counted

theorem no_mappers (counted : Counted vm roots kernel idle held role) (unused : role frame ≠ .other) :
    mappers vm roots frame = ∅ := by
  rw [Finset.eq_empty_iff_forall_notMem]
  rintro ⟨root, page⟩ mapped
  obtain ⟨member, plain, entry, found, rfl⟩ := mem_mappers.mp mapped
  exact unused (counted.mapped root member page plain entry found).1

/-- More tables leave the references as they were. -/
theorem extended (counted : Counted vm roots kernel idle held role) (ext : Extended vm after role role') :
    Counted after roots kernel idle held role' := by
  have looks : ∀ root ∈ roots, ∀ page, Plain page → look after root page = look vm root page :=
    fun root member page plain => ext.looks root page (counted.rooted root member) plain.1
  have others : ∀ frame, role' frame = .other ↔ role frame = .other := by
    intro frame
    by_cases free : role frame = .free
    · refine iff_of_false (fun other => ?_) (by rw [free]; exact Role.noConfusion)
      rcases ext.fresh frame free with still | ⟨_, _, _, taken⟩
      · rw [still] at other
        cases other
      · rw [taken] at other
        cases other
    · rw [ext.kept frame free]
  have data : ∀ frame, DataFrame role' kernel frame ↔ DataFrame role kernel frame :=
    fun frame => and_congr_left' (others frame)
  refine ⟨ext.tables, fun root member => ?_, fun frame is_root => ?_, fun frame own => ?_,
    fun root member page plain entry found => ?_, fun frame low high plain outside => ?_, fun frame => ?_⟩
  · rw [ext.kept root (by rw [counted.rooted root member]; exact Role.noConfusion), counted.rooted root member]
  · refine counted.only frame ?_
    rw [← ext.kept frame fun free => ?_, is_root]
    rcases ext.fresh frame free with same | ⟨_, _, _, same⟩ <;> rw [is_root] at same <;> cases same
  · exact (others frame).mpr (counted.reserved frame own)
  · rw [looks root member page plain] at found
    exact (data _).mpr (counted.mapped root member page plain entry found)
  · have use : role' frame = .other ∨ role' frame = .free := by
      cases at_frame : role' frame with
      | free => exact .inr rfl
      | other => exact .inl rfl
      | root => exact absurd (.inl at_frame) plain
      | table n t i => exact absurd (.inr ⟨n, t, i, at_frame⟩) plain
    have before : ¬ IsTable role frame := by
      intro table
      have used : role frame ≠ .free := by
        intro free
        rcases table with same | ⟨_, _, _, same⟩ <;> rw [free] at same <;> cases same
      unfold IsTable at table
      rw [← ext.kept frame used] at table
      exact plain table
    rw [(ext.data frame use).2, counted.counted frame low high before outside, mappers_congr looks]
  · rw [counted.unmapped, data, mappers_congr looks]

/-- References that are held besides the mappings. -/
theorem hold (counted : Counted vm roots kernel idle held role) (n : Nat) (pmm : after.pmm = vm.pmm)
    (mem : after.mem = vm.mem)
    (ref : after.ref = Function.update vm.ref frame ((mappers vm roots frame).card + n)) :
    Counted after roots kernel idle (Function.update held frame n) role := by
  have looks : ∀ root page, look after root page = look vm root page := fun root page => look_congr mem
  have same : mappers after roots = mappers vm roots := mappers_congr fun root _ page _ => looks root page
  refine ⟨counted.tables.congr pmm mem, counted.rooted, counted.only, counted.reserved, fun root member page plain entry found => ?_,
    fun other low high plain outside => ?_, fun other => ?_⟩
  · rw [looks] at found
    exact counted.mapped root member page plain entry found
  · rw [ref, same]
    by_cases here : other = frame
    · rw [here, Function.update_self, Function.update_self]
    · rw [Function.update_of_ne here, Function.update_of_ne here]
      exact counted.counted other low high plain outside
  · rw [same, counted.unmapped]

/-- A mapping of a frame that was held for it. -/
theorem put (counted : Counted vm roots kernel idle held role) (member : root ∈ roots) (plain : Plain page)
    (at_slot : slotOf vm root page = some slot) (maps : valid entry = true) (data : DataFrame role kernel (ppn entry))
    (clean : ∀ old, look vm root page = some old → ppn old = ppn entry) (n : Nat)
    (count : (mappers vm roots (ppn entry)).card + held (ppn entry) =
      (insert (root, page) (mappers vm roots (ppn entry))).card + n) :
    Counted (putEntry vm slot entry) roots kernel (fun frame => idle frame ∧ frame ≠ ppn entry)
      (Function.update held (ppn entry) n) role := by
  have is_root := counted.rooted root member
  have looks : ∀ root' ∈ roots, ∀ page', Plain page' → look (putEntry vm slot entry) root' page' =
      if root' = root ∧ page' = page then some entry else look vm root' page' := by
    intro root' member' page' plain'
    rw [counted.tables.put_look is_root plain.1 at_slot (counted.rooted root' member') plain'.1, if_pos maps]
  have mappers_here := mappers_changed member plain looks
  have elsewhere : ∀ {other}, other ≠ ppn entry →
      mappers (putEntry vm slot entry) roots other = mappers vm roots other := by
    intro other apart
    rw [mappers_here, Option.map_some, if_neg fun same => apart (Option.some.inj same).symm, Finset.erase_eq_of_notMem]
    intro mapped
    obtain ⟨_, _, old, found, at_other⟩ := mem_mappers.mp mapped
    exact apart (at_other.symm.trans (clean old found))
  refine ⟨counted.tables.put is_root plain.1 at_slot, counted.rooted, counted.only, counted.reserved,
    fun root' member' page' plain' found same => ?_, fun other low high free outside => ?_, fun other => ?_⟩
  · rw [looks root' member' page' plain'] at same
    split at same
    · obtain rfl := Option.some.inj same
      exact data
    · exact counted.mapped root' member' page' plain' found same
  · rw [show (putEntry vm slot entry).ref other = vm.ref other from rfl, counted.counted other low high free outside]
    by_cases here : other = ppn entry
    · rw [here, mappers_here, Function.update_self, Option.map_some, if_pos rfl]
      omega
    · rw [elsewhere here, Function.update_of_ne here]
  · rw [counted.unmapped]
    by_cases here : other = ppn entry
    · rw [here, mappers_here, if_pos (by rw [Option.map_some])]
      simp only [ne_eq, not_true_eq_false, and_false, Finset.insert_ne_empty]
    · rw [elsewhere here]
      simp only [ne_eq, here, not_false_eq_true, and_true]

/-- A mapping goes, and with the last one its frame. -/
theorem unmap (counted : Counted vm roots kernel idle held role) (member : root ∈ roots) (plain : Plain page)
    (found : look vm root page = some entry) (unheld : held (ppn entry) = 0)
    (tables : Tables after role')
    (looks : ∀ root' ∈ roots, ∀ page', Plain page' →
      look after root' page' = if root' = root ∧ page' = page then none else look vm root' page')
    (refs : ∀ other, other ≠ ppn entry → role' other = role other ∧ after.ref other = vm.ref other)
    (here : (role' (ppn entry) = .other ∧ vm.ref (ppn entry) ≠ 1 ∧ after.ref (ppn entry) = vm.ref (ppn entry) - 1) ∨
      role' (ppn entry) = .free ∧ vm.ref (ppn entry) = 1 ∧ after.ref (ppn entry) = 0) :
    Counted after roots kernel idle held role' := by
  have data := counted.mapped root member page plain entry found
  have at_root := counted.rooted root member
  have mapped : (root, page) ∈ mappers vm roots (ppn entry) := mem_mappers.mpr ⟨member, plain, entry, found, rfl⟩
  have was : vm.ref (ppn entry) = (mappers vm roots (ppn entry)).card := by
    have plain : ¬ IsTable role (ppn entry) := by
      rintro (never | ⟨_, _, _, never⟩) <;> rw [data.1] at never <;> cases never
    have eq := counted.counted (ppn entry) data.2.2.1 data.2.2.2 plain data.2.1
    rw [unheld] at eq
    simpa using eq
  have erased : mappers after roots (ppn entry) = (mappers vm roots (ppn entry)).erase (root, page) := by
    rw [mappers_changed member plain looks, if_neg (by simp)]
  have less := Finset.card_erase_add_one mapped
  have elsewhere : ∀ {other}, other ≠ ppn entry → mappers after roots other = mappers vm roots other := by
    intro other apart
    rw [mappers_changed member plain looks, if_neg (by simp), Finset.erase_eq_of_notMem]
    intro both
    obtain ⟨_, _, old, same, at_other⟩ := mem_mappers.mp both
    rw [found] at same
    obtain rfl := Option.some.inj same
    exact apart at_other.symm
  have roles : ∀ {other}, role' other ≠ role other → other = ppn entry := by
    intro other changed
    by_contra apart
    exact changed (refs other apart).1
  refine ⟨tables, fun root' member' => ?_, fun other is_root => ?_, fun other own => ?_,
    fun root' member' page' plain' entry' found' => ?_, fun other low high free outside => ?_, fun other => ?_⟩
  · by_contra changed
    have same := roles (fun eq => changed (eq.trans (counted.rooted root' member')))
    have other := data.1
    rw [← same, counted.rooted root' member'] at other
    cases other
  · by_cases same : other = ppn entry
    · rw [same] at is_root
      rcases here with ⟨use, _⟩ | ⟨use, _⟩ <;> rw [is_root] at use <;> cases use
    · rw [(refs other same).1] at is_root
      exact counted.only other is_root
  · by_contra changed
    have same := roles (fun eq => changed (eq.trans (counted.reserved other own)))
    exact data.2.1 (same ▸ own)
  · rw [looks root' member' page' plain'] at found'
    split at found'
    · cases found'
    rename_i apart
    have data' := counted.mapped root' member' page' plain' entry' found'
    by_cases same : ppn entry' = ppn entry
    · rcases here with ⟨other, _⟩ | ⟨_, one, _⟩
      · exact ⟨by rw [same, other], data'.2⟩
      · have mapped' : (root', page') ∈ mappers vm roots (ppn entry) :=
          mem_mappers.mpr ⟨member', plain', entry', found', same⟩
        have single : (mappers vm roots (ppn entry)).card ≤ 1 := by omega
        have both := Finset.card_le_one.mp single _ mapped' _ mapped
        exact absurd (Prod.mk.inj both) apart
    · exact ⟨by rw [(refs _ same).1, data'.1], data'.2⟩
  · by_cases same : other = ppn entry
    · rw [same, erased, unheld]
      rcases here with ⟨_, _, ref⟩ | ⟨_, one, ref⟩ <;> rw [ref] <;> push_cast <;> omega
    · rw [elsewhere same, (refs other same).2]
      refine counted.counted other low high ?_ outside
      unfold IsTable at free ⊢
      rwa [(refs other same).1] at free
  · rw [counted.unmapped]
    by_cases same : other = ppn entry
    · refine iff_of_false (fun both => ?_) fun both => ?_
      · rw [same] at both
        rw [both.2] at mapped
        exact Finset.notMem_empty _ mapped
      · rw [same, erased] at both
        rcases here with ⟨_, many, _⟩ | ⟨free, _⟩
        · have none := Finset.card_eq_zero.mpr both.2
          omega
        · have never := both.1.1
          rw [free] at never
          cases never
    · rw [elsewhere same, DataFrame, DataFrame, (refs other same).1]

end Counted

/-! ## One entry -/

/-- One entry is changed, and a frame that it mapped may be free now. -/
structure Changed (vm after : Memory α) (role role' : Nat → Role) (root page : Nat) (entry : Option Nat) : Prop where
  kept : ∀ frame, IsTable role frame → role' frame = role frame
  mem : ∀ frame, ¬ IsTable role' frame → after.mem frame = vm.mem frame
  freed : ∀ frame, role frame = .other → role' frame = .other ∨
    role' frame = .free ∧ ∃ old, look vm root page = some old ∧ ppn old = frame
  slots : ∀ root' page' slot, role root' = .root → Own page' → slotOf vm root' page' = some slot →
    slotOf after root' page' = some slot
  looks : ∀ root' page', role root' = .root → Own page' →
    look after root' page' = if root' = root ∧ page' = page then entry else look vm root' page'
  kernel : ∀ root', role root' = .root → after.mem root' 511 = vm.mem root' 511
  config : after.swapInitOk = vm.swapInitOk ∧ after.bootPgdir = vm.bootPgdir

theorem not_table (use : ¬ IsTable role frame) : role frame = .other ∨ role frame = .free := by
  cases at_frame : role frame with
  | free => exact .inr rfl
  | other => exact .inl rfl
  | root => exact absurd (.inl at_frame) use
  | table n t i => exact absurd (.inr ⟨n, t, i, at_frame⟩) use

/-- New tables change no entry. -/
theorem Extended.changed (ext : Extended vm after role role') (root page : Nat) :
    Changed vm after role role' root page (look vm root page) := by
  refine ⟨fun frame table => ext.kept frame ?_, fun frame plain => (ext.data frame (not_table plain)).1,
    fun frame other => .inl ?_, ext.slots, fun root' page' is_root own => ?_, ext.kernel, ext.config⟩
  · rcases table with same | ⟨_, _, _, same⟩ <;> rw [same] <;> exact Role.noConfusion
  · rw [ext.kept frame (by rw [other]; exact Role.noConfusion), other]
  · rw [ext.looks root' page' is_root own]
    split
    · rename_i here
      rw [here.1, here.2]
    · rfl

section
omit [LawfulManager α]

namespace Changed

theorem is_root {entry : Option Nat} {root' : Nat} (changed : Changed vm after role role' root page entry)
    (is_root : role root' = .root) : role' root' = .root := by
  rw [changed.kept root' (.inl is_root), is_root]

theorem table {entry : Option Nat} (changed : Changed vm after role role' root page entry)
    (table : IsTable role frame) : IsTable role' frame := by
  unfold IsTable
  rwa [changed.kept frame table]

theorem congr {entry : Option Nat} (changed : Changed vm middle role role' root page entry) (mem : after.mem = middle.mem)
    (config : after.swapInitOk = middle.swapInitOk ∧ after.bootPgdir = middle.bootPgdir) :
    Changed vm after role role' root page entry := by
  refine ⟨changed.kept, fun frame plain => ?_, changed.freed, fun root' page' slot is_root own at_slot => ?_,
    fun root' page' is_root own => ?_, fun root' is_root => ?_, config.1.trans changed.config.1,
    config.2.trans changed.config.2⟩
  · rw [mem, changed.mem frame plain]
  · rw [← changed.slots root' page' slot is_root own at_slot]
    simp only [slotOf, child, mem]
  · rw [look_congr mem, changed.looks root' page' is_root own]
  · rw [mem, changed.kernel root' is_root]

/-- An entry that is changed twice. -/
theorem trans {first second : Option Nat} (changed : Changed vm middle role role' root page first)
    (next : Changed middle after role' role'' root page second)
    (same : first = look vm root page ∨ first = none) (at_root : role root = .root) (own : Own page)
    (settled : ∀ frame, role frame = .other → role' frame = .free → role'' frame = .free) :
    Changed vm after role role'' root page second := by
  refine ⟨fun frame table => ?_, fun frame plain => ?_, fun frame other => ?_,
    fun root' page' slot is_root own' at_slot => ?_, fun root' page' is_root own' => ?_, fun root' is_root => ?_,
    next.config.1.trans changed.config.1, next.config.2.trans changed.config.2⟩
  · rw [next.kept frame (changed.table table), changed.kept frame table]
  · rw [next.mem frame plain, changed.mem frame fun table => plain (next.table table)]
  · rcases changed.freed frame other with still | ⟨free, mapped⟩
    · refine (next.freed frame still).imp_right fun ⟨free, old, found, at_frame⟩ => ⟨free, old, ?_, at_frame⟩
      rw [changed.looks root page at_root own, if_pos ⟨rfl, rfl⟩] at found
      rcases same with same | same
      · rw [← same, found]
      · rw [same] at found
        cases found
    · exact .inr ⟨settled frame other free, mapped⟩
  · exact next.slots root' page' slot (changed.is_root is_root) own' (changed.slots root' page' slot is_root own' at_slot)
  · rw [next.looks root' page' (changed.is_root is_root) own', changed.looks root' page' is_root own']
    split <;> rfl
  · rw [next.kernel root' (changed.is_root is_root), changed.kernel root' is_root]

end Changed

end

/-- A word that is stored at a page's entry. -/
theorem Tables.put_changed (tables : Tables vm role) (entry : Nat) (root_ok : role root = .root) (own : Own page)
    (at_slot : slotOf vm root page = some slot) :
    Changed vm (putEntry vm slot entry) role role root page (if valid entry then some entry else none) := by
  obtain ⟨_, _, low, _⟩ := tables.slot_roles root_ok own at_slot
  refine ⟨fun _ _ => rfl, fun frame plain => Function.update_of_ne ?_ _ _, fun _ other => .inl other,
    fun root' page' slot' is_root own' at_slot' => ?_, fun root' page' is_root own' => ?_, fun root' is_root => ?_, rfl, rfl⟩
  · rintro rfl
    exact plain (.inr ⟨_, _, _, low⟩)
  · rw [tables.put_slot root_ok own at_slot is_root own', at_slot']
  · exact tables.put_look root_ok own at_slot is_root own'
  · refine congrFun (Function.update_of_ne ?_ _ _) _
    rintro rfl
    rw [is_root] at low
    cases low

omit [LawfulManager α] in
theorem pte2page_settles {post : Nat → Memory α → Prop} (maps : valid entry = true)
    (memory : nbase ≤ ppn entry ∧ ppn entry < npage) (held : post (ppn entry) vm) :
    Settles (pte2page entry) post bad halt vm := by
  refine .bind (.assert (fun _ => .bind (.assert (fun _ => .pure held) fun outside => ?_)) fun invalid => ?_)
  · rw [Bool.and_eq_false_iff, decide_eq_false_iff_not, decide_eq_false_iff_not] at outside
    exact absurd memory (by omega)
  · rw [maps] at invalid
    cases invalid

theorem DataFrame.used (data : DataFrame role kernel frame) (tables : Tables vm role) : vm.free frame = false := by
  have busy : ¬ vm.free frame = true := by
    rw [← tables.free, data.1]
    exact Role.noConfusion
  simpa using busy

theorem DataFrame.plain (data : DataFrame role kernel frame) : ¬ IsTable role frame := by
  rintro (never | ⟨_, _, _, never⟩) <;> rw [data.1] at never <;> cases never

/-- An entry is cleared, and the frame it mapped is used on or given back. -/
theorem Counted.cleared (counted : Counted vm roots kernel idle held role) (member : root ∈ roots) (plain : Plain page)
    (at_slot : slotOf vm root page = some slot) (found : look vm root page = some entry) (unheld : held (ppn entry) = 0)
    (use : Role) (mem : after.mem = (putEntry vm slot 0).mem)
    (config : after.swapInitOk = vm.swapInitOk ∧ after.bootPgdir = vm.bootPgdir)
    (free : after.free = Function.update vm.free (ppn entry) (decide (use = .free))) (ordered : ManagedPages.Ordered after.pmm)
    (refs : ∀ other, other ≠ ppn entry → after.ref other = vm.ref other)
    (here : (use = .other ∧ vm.ref (ppn entry) ≠ 1 ∧ after.ref (ppn entry) = vm.ref (ppn entry) - 1) ∨
      use = .free ∧ vm.ref (ppn entry) = 1 ∧ after.ref (ppn entry) = 0) :
    ∃ role', Counted after roots kernel idle held role' ∧ Changed vm after role role' root page none ∧
      spare vm ≤ spare after ∧ ∀ frame, role' frame = role frame ∨ role frame = .other ∧ role' frame = .free := by
  have at_root := counted.rooted root member
  have data := counted.mapped root member page plain entry found
  have used := data.used counted.tables
  have put : Tables (putEntry vm slot 0) role := counted.tables.put at_root plain.1 at_slot
  have uses : use = .free ∨ use = .other := here.symm.imp And.left And.left
  have tables : Tables after (Function.update role (ppn entry) use) := put.recolor data.plain uses data.2.2 free mem ordered
  have put_changed : Changed vm (putEntry vm slot 0) role role root page none :=
    counted.tables.put_changed 0 at_root plain.1 at_slot
  have looks : ∀ root' page', look after root' page' = look (putEntry vm slot 0) root' page' :=
    fun _ _ => look_congr mem
  refine ⟨_, counted.unmap member plain found unheld tables (fun root' member' page' plain' => ?_)
    (fun other apart => ⟨Function.update_of_ne apart _ _, refs other apart⟩) ?_, ⟨fun frame table => ?_, fun frame use => ?_,
      fun frame other => ?_, fun root' page' slot' is_root own at_slot' => ?_, fun root' page' is_root own => ?_,
      fun root' is_root => ?_, config⟩, ?_, fun frame => ?_⟩
  · rw [looks, put_changed.looks root' page' (counted.rooted root' member') plain'.1]
  · rwa [Function.update_self]
  · refine Function.update_of_ne ?_ _ _
    rintro rfl
    exact data.plain table
  · rw [mem]
    refine put_changed.mem frame fun table => use ?_
    exact (isTable_update data.plain uses frame).mpr table
  · by_cases same : frame = ppn entry
    · rw [same, Function.update_self]
      exact uses.symm.imp_right fun free => ⟨free, entry, found, rfl⟩
    · rw [Function.update_of_ne same]
      exact .inl other
  · rw [← put_changed.slots root' page' slot' is_root own at_slot']
    simp only [slotOf, child, mem]
  · rw [looks, put_changed.looks root' page' is_root own]
  · rw [mem, put_changed.kernel root' is_root]
  · rcases uses with rfl | rfl
    · have given : after.free = Function.update vm.free (ppn entry) true := free
      have more := spare_given used data.2.2 given
      omega
    · have same : after.free = vm.free := free.trans (Function.update_eq_self_iff.mpr used.symm)
      rw [spare, spare, same]
  · by_cases same : frame = ppn entry
    · rw [same, Function.update_self, data.1]
      exact uses.symm.imp_right fun free => ⟨rfl, free⟩
    · exact .inl (Function.update_of_ne same _ _)

/-- `page_remove_pte`: the mapping goes, and the frame with its last reference. -/
theorem pageRemovePte_settles (takes_back : TakesBack α halt) (counted : Counted vm roots kernel idle held role) (member : root ∈ roots)
    (plain : Plain page) (at_slot : slotOf vm root page = some slot)
    (unheld : ∀ old, look vm root page = some old → held (ppn old) = 0) :
    Settles (pageRemovePte slot.1 slot.2) (fun _ after => ∃ role', Counted after roots kernel idle held role' ∧
      Changed vm after role role' root page none ∧ spare vm ≤ spare after ∧
      ∀ frame, role' frame = role frame ∨ role frame = .other ∧ role' frame = .free) bad halt vm := by
  have found : look vm root page = if valid (vm.mem slot.1 slot.2) then some (vm.mem slot.1 slot.2) else none := by
    rw [look, at_slot, Option.bind_some]
  refine .bind (.gets ?_)
  refine .onlyIf (fun maps => ?_) fun unmapped => ?_
  · rw [if_pos maps] at found
    have data := counted.mapped root member page plain _ found
    have used := data.used counted.tables
    have unheld := unheld _ found
    refine .bind (pte2page_settles maps data.2.2 (.bind (.modify (.bind (.gets (.bind (.onlyIf (fun last => ?_)
      fun more => ?_)))))))
    all_goals
      generalize vm.mem slot.1 slot.2 = entry at *
    · -- the last mapping
      have one : vm.ref (ppn entry) = 1 := by
        simp only [decide_eq_true_eq, Function.update_self] at last
        omega
      refine freePage_settles counted.tables.ordered data.2.2 used (fun pmm gave => .modify ?_) takes_back
      refine counted.cleared member plain at_slot found unheld .free rfl ⟨rfl, rfl⟩ gave.left gave.ordered (fun other apart => ?_)
        (.inr ⟨rfl, one, Function.update_self ..⟩)
      exact (Function.update_of_ne apart _ _).trans (Function.update_of_ne apart _ _)
    · have many : vm.ref (ppn entry) ≠ 1 := by
        simp only [decide_eq_false_iff_not, Function.update_self] at more
        omega
      refine .modify ?_
      refine counted.cleared member plain at_slot found unheld .other rfl ⟨rfl, rfl⟩ ?_ counted.tables.ordered
        (fun other apart => Function.update_of_ne apart _ _) (.inl ⟨rfl, many, Function.update_self ..⟩)
      exact (Function.update_eq_self_iff.mpr used.symm).symm
  · rw [unmapped] at found
    refine ⟨role, counted, ?_, le_rfl, fun _ => .inl rfl⟩
    have same := (Extended.refl counted.tables).changed root page
    rwa [found] at same

/-- The entry of a mapping with some permissions. -/
def mapping (frame perm : Nat) : Nat := pteCreate frame (pteV ||| perm)

theorem perm_small (small : perm < 1024) : pteV ||| perm < 1024 := Nat.or_lt_two_pow (n := 10) (by decide) small

theorem ppn_mapping (small : perm < 1024) : ppn (mapping frame perm) = frame := ppn_pteCreate (perm_small small)

theorem valid_mapping (frame : Nat) (small : perm < 1024) : valid (mapping frame perm) = true := valid_pteCreate (perm_small small)

/-- What `page_ref_inc` and `page_ref_dec` leave. -/
def refer (vm : Memory α) (frame : Nat) (ref : Int) : Memory α := { vm with ref := Function.update vm.ref frame ref }

/-- The reference that was taken becomes that of the mapping. -/
theorem Counted.stored {n : Nat} (counted : Counted vm roots kernel idle (Function.update (fun _ => 0) frame n) role)
    (member : root ∈ roots) (plain : Plain page) (at_slot : slotOf vm root page = some slot)
    (data : DataFrame role kernel frame) (small : perm < 1024)
    (clean : (look vm root page = none ∧ n = 1) ∨ (∃ old, look vm root page = some old ∧ ppn old = frame) ∧ n = 0) :
    Counted (putEntry vm slot (mapping frame perm)) roots kernel (fun other => idle other ∧ other ≠ frame) (fun _ => 0)
      role ∧ Changed vm (putEntry vm slot (mapping frame perm)) role role root page (some (mapping frame perm)) := by
  have maps : ppn (mapping frame perm) = frame := ppn_mapping small
  have put := counted.put member plain at_slot (valid_mapping frame small) (by rwa [maps]) (fun old found => ?_) 0 ?_
  · have changed := counted.tables.put_changed (mapping frame perm) (counted.rooted root member) plain.1 at_slot
    rw [if_pos (valid_mapping frame small)] at changed
    rw [maps, Function.update_idem, Function.update_eq_self_iff.mpr rfl] at put
    exact ⟨put, changed⟩
  · rw [maps]
    rcases clean with ⟨none, _⟩ | ⟨⟨old', found', same⟩, _⟩
    · rw [found] at none
      cases none
    · rw [found] at found'
      obtain rfl := Option.some.inj found'
      exact same
  · rw [maps, Function.update_self]
    rcases clean with ⟨none, one⟩ | ⟨⟨old, found, same⟩, zero⟩
    · rw [one, Finset.card_insert_of_notMem]
      intro mapped
      obtain ⟨_, _, old, found, _⟩ := mem_mappers.mp mapped
      rw [none] at found
      cases found
    · rw [zero, Finset.insert_eq_of_mem (mem_mappers.mpr ⟨member, plain, old, found, same⟩)]

/-- `page_insert`. -/
theorem pageInsert_settles (takes_back : look vm root (pageOf la) ≠ none → TakesBack α halt)
    (counted : Counted vm roots kernel idle (fun _ => 0) role) (member : root ∈ roots)
    (plain : Plain (pageOf la)) (data : DataFrame role kernel frame) (small : perm < 1024)
    (out : spare vm < missing vm root (pageOf la) → vm.swapInitOk = true → halt) :
    Settles (pageInsert root frame la perm)
      (fun _ after => ∃ role', Counted after roots kernel (fun other => idle other ∧ other ≠ frame) (fun _ => 0) role' ∧
        Changed vm after role role' root (pageOf la) (some (mapping frame perm)) ∧
        spare vm ≤ spare after + missing vm root (pageOf la))
      (fun _ after => spare vm < missing vm root (pageOf la) ∧
        ∃ role', Counted after roots kernel idle (fun _ => 0) role' ∧ Extended vm after role role')
      halt vm := by
  have at_root := counted.rooted root member
  refine .bind ((getPte_create counted.tables at_root plain.1 out).weaken (fun found mid held => ?_) fun _ _ held => held)
  obtain ⟨⟨role1, ext⟩, short, there⟩ := held
  have counted1 := counted.extended ext
  have changed1 := ext.changed root (pageOf la)
  cases found with
  | none => exact .fail ⟨short rfl, role1, counted1, ext⟩
  | some slot =>
    obtain ⟨at_slot, taken⟩ := there slot rfl
    have still : role1 frame = .other := by rw [ext.kept frame (by rw [data.1]; exact Role.noConfusion), data.1]
    have data1 : DataFrame role1 kernel frame := ⟨still, data.2⟩
    have ref : mid.ref frame = (mappers mid roots frame).card := by
      simpa using counted1.counted frame data.2.2.1 data.2.2.2 data1.plain data.2.1
    have taking : Counted (refer mid frame (mid.ref frame + 1)) roots kernel idle (Function.update (fun _ => 0) frame 1) role1 :=
      counted1.hold 1 rfl rfl (by rw [ref]; rfl)
    have look_mid : look mid root (pageOf la) =
        if valid (mid.mem slot.1 slot.2) then some (mid.mem slot.1 slot.2) else none := by
      rw [look, at_slot, Option.bind_some]
    have begun : Changed vm (refer mid frame (mid.ref frame + 1)) role role1 root (pageOf la) (look vm root (pageOf la)) :=
      changed1.congr rfl ⟨rfl, rfl⟩
    refine .bind (.modify (.bind (.gets (.bind (.onlyIf (fun maps => ?_) fun unmapped => ?_)))))
    · -- the entry has a mapping
      have mapped : look mid root (pageOf la) = some (mid.mem slot.1 slot.2) := by
        rw [look_mid]
        exact if_pos maps
      have old_data := counted1.mapped root member (pageOf la) plain _ mapped
      refine .bind (pte2page_settles maps old_data.2.2 ?_)
      split
      · rename_i same
        have back : Counted (refer (refer mid frame (mid.ref frame + 1)) frame ((refer mid frame (mid.ref frame + 1)).ref frame - 1))
            roots kernel idle (Function.update (fun _ => 0) frame 0) role1 := by
          refine counted1.hold 0 rfl rfl ?_
          simp only [refer, Function.update_idem, Function.update_self, ref]
          congr 1
          omega
        obtain ⟨stored, put⟩ := back.stored member plain at_slot data1 small (.inr ⟨⟨_, mapped, same⟩, rfl⟩)
        have begun' : Changed vm (refer (refer mid frame (mid.ref frame + 1)) frame
            ((refer mid frame (mid.ref frame + 1)).ref frame - 1)) role role1 root (pageOf la) (look vm root (pageOf la)) :=
          begun.congr rfl ⟨rfl, rfl⟩
        exact .modify (.modify ⟨role1, stored, begun'.trans put (.inl rfl) at_root plain.1 fun _ _ free => free, taken.ge⟩)
      · rename_i differ
        have there : look vm root (pageOf la) ≠ none := by
          rw [← ext.looks root _ at_root plain.1, mapped]
          exact Option.some_ne_none _
        refine (pageRemovePte_settles (takes_back there) taking member plain at_slot fun old found => ?_).weaken (fun _ mid2 held => ?_)
          fun _ _ held => held
        · have same : old = mid.mem slot.1 slot.2 := Option.some.inj (found.symm.trans mapped)
          rw [same]
          exact Function.update_of_ne differ _ _
        · obtain ⟨role2, counted2, removed, more, _⟩ := held
          have data2 : DataFrame role2 kernel frame := by
            refine ⟨?_, data.2⟩
            rcases removed.freed frame still with other | ⟨_, old, found, at_frame⟩
            · exact other
            · have same : old = mid.mem slot.1 slot.2 := Option.some.inj (found.symm.trans mapped)
              rw [same] at at_frame
              exact absurd at_frame differ
          have empty : look mid2 root (pageOf la) = none := by
            rw [removed.looks root (pageOf la) (counted1.rooted root member) plain.1, if_pos ⟨rfl, rfl⟩]
          obtain ⟨stored, put⟩ := counted2.stored member plain
            (removed.slots root _ slot (counted1.rooted root member) plain.1 at_slot) data2 small (.inl ⟨empty, rfl⟩)
          have both := begun.trans removed (.inl rfl) at_root plain.1 fun other is_other free => by
            rw [ext.kept other (by rw [is_other]; exact Role.noConfusion), is_other] at free
            cases free
          refine .modify ⟨role2, stored, both.trans put (.inr rfl) at_root plain.1 fun _ _ free => free, ?_⟩
          have same : spare (refer mid frame (mid.ref frame + 1)) = spare mid := rfl
          change spare vm ≤ spare mid2 + missing vm root (pageOf la)
          omega
    · have empty : look mid root (pageOf la) = none := by
        rw [look_mid]
        exact if_neg (by rw [unmapped]; decide)
      obtain ⟨stored, put⟩ := taking.stored member plain at_slot data1 small (.inl ⟨empty, rfl⟩)
      exact .modify ⟨role1, stored, begun.trans put (.inl rfl) at_root plain.1 fun _ _ free => free, taken.ge⟩

omit [LawfulManager α] in
theorem look_absent (absent : slotOf vm root page = none) : look vm root page = none := by
  rw [look, absent, Option.bind_none]

/-- `page_remove`. -/
theorem pageRemove_settles (takes_back : TakesBack α halt) (counted : Counted vm roots kernel idle (fun _ => 0) role) (member : root ∈ roots)
    (plain : Plain (pageOf la)) :
    Settles (pageRemove root la) (fun _ after => ∃ role', Counted after roots kernel idle (fun _ => 0) role' ∧
      Changed vm after role role' root (pageOf la) none ∧ spare vm ≤ spare after ∧
      ∀ frame, role' frame = role frame ∨ role frame = .other ∧ role' frame = .free) bad halt vm := by
  refine .bind ((getPte_lookup counted.tables (counted.rooted root member) plain.1).weaken (fun found mid held => ?_)
    fun _ _ held => held)
  obtain ⟨at_slot, rfl⟩ := held
  cases found with
  | none =>
    refine .pure ⟨role, counted, ?_, le_rfl, fun _ => .inl rfl⟩
    have same := (Extended.refl counted.tables).changed root (pageOf la)
    rwa [look_absent at_slot.symm] at same
  | some slot => exact pageRemovePte_settles takes_back counted member plain at_slot.symm fun _ _ => rfl

/-! ## Ranges -/

section
omit [LawfulManager α]

/-- Some pages of a directory are changed. -/
structure Touched (vm after : Memory α) (role role' : Nat → Role) (root : Nat) (pages : Nat → Prop) : Prop where
  kept : ∀ frame, IsTable role frame → role' frame = role frame
  slots : ∀ root' page' slot, role root' = .root → Own page' → slotOf vm root' page' = some slot →
    slotOf after root' page' = some slot
  elsewhere : ∀ root' page', role root' = .root → Own page' → (root' = root → ¬ pages page') →
    look after root' page' = look vm root' page'
  kernel : ∀ root', role root' = .root → after.mem root' 511 = vm.mem root' 511
  config : after.swapInitOk = vm.swapInitOk ∧ after.bootPgdir = vm.bootPgdir

theorem Changed.touched {entry : Option Nat} (changed : Changed vm after role role' root page entry) :
    Touched vm after role role' root (fun other => other = page) := by
  refine ⟨changed.kept, changed.slots, fun root' page' is_root own apart => ?_, changed.kernel, changed.config⟩
  rw [changed.looks root' page' is_root own, if_neg]
  rintro ⟨same, rfl⟩
  exact apart same rfl

namespace Touched
variable {pages pages' : Nat → Prop}

theorem refl : Touched vm vm role role root pages :=
  ⟨fun _ _ => rfl, fun _ _ _ _ _ at_slot => at_slot, fun _ _ _ _ _ => rfl, fun _ _ => rfl, rfl, rfl⟩

theorem is_root {root' : Nat} (touched : Touched vm after role role' root pages) (is_root : role root' = .root) :
    role' root' = .root := by
  rw [touched.kept root' (.inl is_root), is_root]

theorem wider (touched : Touched vm after role role' root pages) (more : ∀ page, pages page → pages' page) :
    Touched vm after role role' root pages' :=
  ⟨touched.kept, touched.slots, fun root' page' is_root own apart => touched.elsewhere root' page' is_root own
    fun same here => apart same (more page' here), touched.kernel, touched.config⟩

theorem trans (first : Touched vm middle role role' root pages) (second : Touched middle after role' role'' root pages) :
    Touched vm after role role'' root pages := by
  refine ⟨fun frame table => ?_, fun root' page' slot is_root own at_slot => ?_, fun root' page' is_root own apart => ?_,
    fun root' is_root => ?_, second.config.1.trans first.config.1, second.config.2.trans first.config.2⟩
  · have table' : IsTable role' frame := by
      unfold IsTable
      rwa [first.kept frame table]
    rw [second.kept frame table', first.kept frame table]
  · exact second.slots root' page' slot (first.is_root is_root) own (first.slots root' page' slot is_root own at_slot)
  · rw [second.elsewhere root' page' (first.is_root is_root) own apart, first.elsewhere root' page' is_root own apart]
  · rw [second.kernel root' (first.is_root is_root), first.kernel root' is_root]

end Touched

/-- The pages of a range of addresses. -/
def Within (start finish page : Nat) : Prop := start / pgsize ≤ page ∧ page < finish / pgsize

theorem pageOf_user {start : Nat} (below : start < usertop) : pageOf start = start / pgsize := by
  rw [pageOf, Nat.mod_eq_of_lt]
  simp only [usertop, pgsize] at *
  omega

/-- The pages behind a table that is missing are not mapped. -/
theorem slotOf_skip {start : Nat} (absent : slotOf vm root (start / pgsize) = none)
    (within : Within start (nextTable start) page) : slotOf vm root page = none := by
  have same : page / 512 = start / pgsize / 512 := by
    simp only [Within, nextTable, ptsize, pgsize] at *
    omega
  unfold slotOf at absent ⊢
  rw [same]
  rw [Option.bind_eq_none_iff] at absent ⊢
  intro table first
  exact Option.map_eq_none_iff.mpr (Option.map_eq_none_iff.mp (absent table first))

end

/-- A range that `unmap_range` and `copy_range` accept. -/
structure Range (start finish : Nat) : Prop where
  start_aligned : start % pgsize = 0
  finish_aligned : finish % pgsize = 0
  some_page : start < finish
  user : finish ≤ usertop

namespace Range
variable {start finish next : Nat}

theorem within_next : Within start (start + pgsize) page ↔ page = start / pgsize := by
  simp only [Within, pgsize]
  omega

theorem next_aligned (range : Range start finish) : Range (start + pgsize) finish ∨ finish ≤ start + pgsize := by
  obtain ⟨first, last, _, user⟩ := range
  rcases Nat.lt_or_ge (start + pgsize) finish with less | done
  · refine .inl ⟨?_, last, less, user⟩
    simp only [pgsize] at *
    omega
  · exact .inr done

theorem one_page (range : Range start finish) (done : finish ≤ start + pgsize) : finish = start + pgsize := by
  obtain ⟨first, last, less, _⟩ := range
  simp only [pgsize] at *
  omega

theorem table_aligned (range : Range start finish) : Range (nextTable start) finish ∨ finish ≤ nextTable start := by
  obtain ⟨_, last, _, user⟩ := range
  rcases Nat.lt_or_ge (nextTable start) finish with less | done
  · refine .inl ⟨?_, last, less, user⟩
    simp only [nextTable, ptsize, pgsize] at *
    omega
  · exact .inr done

/-- One round and the rest of the pages. -/
theorem split (rest : Range next finish) (later : start / pgsize ≤ next / pgsize) (page : Nat) :
    Within start finish page ↔ Within start next page ∨ Within next finish page := by
  have last := rest.some_page
  have first := rest.start_aligned
  simp only [Within, pgsize] at *
  omega

theorem at_start (range : Range start finish) : Within start finish (start / pgsize) ∧ pageOf start = start / pgsize := by
  obtain ⟨first, last, less, user⟩ := range
  refine ⟨⟨le_rfl, ?_⟩, pageOf_user (by omega)⟩
  simp only [pgsize] at *
  omega

theorem own (range : Range start finish) (within : Within start finish page) : Own page := by
  have last := Nat.div_le_div_right (c := pgsize) range.user
  have bound : usertop / pgsize ≤ 511 * (512 * 512) := by decide
  exact (within.2.trans_le last).trans_le bound

end Range

theorem next_page (start : Nat) : (start + pgsize) / pgsize = start / pgsize + 1 :=
  Nat.add_div_right _ (by decide)

theorem lt_nextTable (start : Nat) : start / pgsize < nextTable start / pgsize := by
  simp only [nextTable, ptsize, pgsize]
  omega

/-- The mappings of some pages are gone and nothing else. -/
structure Unmapped (vm after : Memory α) (role role' : Nat → Role) (root : Nat) (pages : Nat → Prop) : Prop where
  touched : Touched vm after role role' root pages
  gone : ∀ page, Own page → pages page → look after root page = none
  given : ∀ frame, role' frame = role frame ∨ role frame = .other ∧ role' frame = .free
  spare : spare vm ≤ spare after

theorem Unmapped.trans {pages pages' more : Nat → Prop} (first : Unmapped vm middle role role' root pages)
    (second : Unmapped middle after role' role'' root more) (at_root : role root = .root)
    (split : ∀ page, pages' page ↔ pages page ∨ more page) : Unmapped vm after role role'' root pages' := by
  refine ⟨(first.touched.wider fun page here => (split page).mpr (.inl here)).trans
    (second.touched.wider fun page here => (split page).mpr (.inr here)), fun page own here => ?_, fun frame => ?_,
    first.spare.trans second.spare⟩
  · by_cases later : more page
    · exact second.gone page own later
    · rw [second.touched.elsewhere root page (first.touched.is_root at_root) own fun _ => later]
      exact first.gone page own (((split page).mp here).resolve_right later)
  · rcases second.given frame with same | ⟨was, free⟩
    · rw [same]
      exact first.given frame
    · rcases first.given frame with same | ⟨_, free'⟩
      · exact .inr ⟨by rw [← same, was], free⟩
      · rw [was] at free'
        cases free'

theorem Unmapped.none {pages : Nat → Prop} (absent : ∀ page, pages page → look vm root page = none) :
    Unmapped vm vm role role root pages :=
  ⟨.refl, fun page _ here => absent page here, fun _ => .inl rfl, le_rfl⟩

/-- `unmap_range`, from any page of the range on. -/
theorem unmapLoop_settles {finish : Nat} (takes_back : TakesBack α halt) (member : root ∈ roots) (more : Nat)
    {vm : Memory α} {role : Nat → Role} {start : Nat}
    (counted : Counted vm roots kernel idle (fun _ => 0) role) (range : Range start finish)
    (enough : finish / pgsize ≤ start / pgsize + more) (plain : ∀ page, Within start finish page → Plain page) :
    Settles (unmapLoop root finish more start) (fun _ after => ∃ role', Counted after roots kernel idle (fun _ => 0) role' ∧
      Unmapped vm after role role' root (Within start finish)) bad halt vm := by
  induction more generalizing vm role start with
  | zero =>
    have inside := range.at_start.1.2
    omega
  | succ more ih =>
    have at_root := counted.rooted root member
    obtain ⟨inside, same⟩ := range.at_start
    have here := plain _ inside
    refine .bind ((getPte_lookup counted.tables at_root (by rw [same]; exact here.1)).weaken (fun found vm held => ?_)
      fun _ _ held => held)
    obtain ⟨at_slot, rfl⟩ := held
    rw [same] at at_slot
    cases found with
    | none =>
      have absent : ∀ page, Within start (nextTable start) page → look vm root page = none :=
        fun page within => look_absent (slotOf_skip at_slot.symm within)
      have step := lt_nextTable start
      simp only
      split
      · rename_i less
        have rest := range.table_aligned.resolve_right (by omega)
        refine (ih counted rest (by omega) fun page within => plain page ⟨by have := within.1; omega, within.2⟩).weaken
          (fun _ after held => ?_) fun _ _ held => held
        obtain ⟨role', counted', unmapped⟩ := held
        exact ⟨role', counted', (Unmapped.none absent).trans unmapped at_root (rest.split step.le)⟩
      · rename_i done
        refine .pure ⟨role, counted, Unmapped.none fun page within => absent page ⟨within.1, ?_⟩⟩
        exact within.2.trans_le (Nat.div_le_div_right (by omega))
    | some slot =>
      refine .bind (.gets ?_)
      have removed : Settles (onlyIf (decide (vm.mem slot.1 slot.2 ≠ 0)) (pageRemovePte slot.1 slot.2)) (fun _ after =>
          ∃ role', Counted after roots kernel idle (fun _ => 0) role' ∧
            Unmapped vm after role role' root (Within start (start + pgsize))) bad halt vm := by
        refine .onlyIf (fun _ => ?_) fun zero => ?_
        · refine (pageRemovePte_settles takes_back counted member here at_slot.symm fun _ _ => rfl).weaken (fun _ after held => ?_)
            fun _ _ held => held
          obtain ⟨role', counted', changed, more, given⟩ := held
          refine ⟨role', counted', changed.touched.wider fun page eq => Range.within_next.mpr eq, fun page own at_page => ?_,
            given, more⟩
          rw [Range.within_next.mp at_page, changed.looks root _ at_root here.1, if_pos ⟨rfl, rfl⟩]
        · refine ⟨role, counted, Unmapped.none fun page at_page => ?_⟩
          have zero : vm.mem slot.1 slot.2 = 0 := by simpa using zero
          rw [Range.within_next.mp at_page, look, ← at_slot, Option.bind_some, zero]
          rfl
      refine .bind (removed.weaken (fun _ after held => ?_) fun _ _ held => held)
      obtain ⟨role1, counted1, first⟩ := held
      have step := next_page start
      split
      · rename_i less
        have rest := range.next_aligned.resolve_right (by omega)
        refine (ih counted1 rest (by omega) fun page within => plain page ⟨by have := within.1; omega, within.2⟩).weaken
          (fun _ after held => ?_) fun _ _ held => held
        obtain ⟨role', counted', unmapped⟩ := held
        exact ⟨role', counted', first.trans unmapped at_root (rest.split (by omega))⟩
      · rename_i done
        rw [range.one_page (by omega)]
        exact .pure ⟨role1, counted1, first⟩

omit [LawfulManager α] in
/-- The assertions in front of a loop over a range. -/
theorem range_settles {start finish : Nat} {call : Call (Memory α) Unit} {post : Unit → Memory α → Prop}
    (fails : ¬ (Range start finish ∧ userbase ≤ start) → halt)
    (held : Range start finish → Settles call post bad halt vm) :
    Settles (do assert (aligned start && aligned finish); assert (userAccess start finish); call) post bad halt vm := by
  have iff : (aligned start && aligned finish) = true ∧ userAccess start finish = true ↔
      Range start finish ∧ userbase ≤ start := by
    simp only [aligned, userAccess, Bool.and_eq_true, decide_eq_true_eq]
    constructor
    · rintro ⟨⟨first, last⟩, ⟨base, less⟩, top⟩
      exact ⟨⟨first, last, less, top⟩, base⟩
    · rintro ⟨⟨first, last, less, top⟩, base⟩
      exact ⟨⟨first, last⟩, ⟨base, less⟩, top⟩
  refine .bind (.assert (fun both => .bind (.assert (fun user => held (iff.mp ⟨both, user⟩).1) fun not => fails fun ok => ?_))
    fun not => fails fun ok => ?_)
  · rw [(iff.mpr ok).2] at not
    cases not
  · rw [(iff.mpr ok).1] at not
    cases not

/-- `unmap_range`. -/
theorem unmapRange_settles {start finish : Nat} (takes_back : TakesBack α halt) (counted : Counted vm roots kernel idle (fun _ => 0) role)
    (member : root ∈ roots) (fails : ¬ (Range start finish ∧ userbase ≤ start) → halt)
    (plain : ∀ page, Within start finish page → Plain page) :
    Settles (unmapRange root start finish) (fun _ after => ∃ role', Counted after roots kernel idle (fun _ => 0) role' ∧
      Unmapped vm after role role' root (Within start finish)) bad halt vm :=
  range_settles fails fun range => unmapLoop_settles takes_back member _ counted range (by omega) plain

/-! ## Copies -/

/-- A free frame is taken for data. -/
structure Taken (vm after : Memory α) (frame : Nat) : Prop where
  took : Took vm.pmm after.pmm frame
  mem : ∀ other, other ≠ frame → after.mem other = vm.mem other
  ref : after.ref = vm.ref
  config : after.swapInitOk = vm.swapInitOk ∧ after.bootPgdir = vm.bootPgdir

namespace Taken

theorem was_free (taken : Taken vm after frame) (tables : Tables vm role) : role frame = .free :=
  (tables.free frame).mpr taken.took.was

theorem not_table (taken : Taken vm after frame) (tables : Tables vm role) : ¬ IsTable role frame := by
  rintro (never | ⟨_, _, _, never⟩) <;> rw [taken.was_free tables] at never <;> cases never

theorem is_table (taken : Taken vm after frame) (tables : Tables vm role) {other : Nat} (table : IsTable role other) :
    after.mem other = vm.mem other := by
  refine taken.mem other ?_
  rintro rfl
  exact taken.not_table tables table

theorem look (taken : Taken vm after frame) (tables : Tables vm role) (is_root : role root = .root) (own : Own page) :
    look after root page = look vm root page :=
  tables.look_same is_root own fun _ table => taken.is_table tables table

theorem tables (taken : Taken vm after frame) (tables : Tables vm role) :
    Tables after (Function.update role frame .other) := by
  have plain := taken.not_table tables
  refine tables.transfer (fun other table => Function.update_of_ne ?_ _ _)
    (fun other table => (isTable_update plain (.inr rfl) other).mp table) (fun other => ?_) (fun other is_free => ?_)
    (fun other n level => taken.is_table tables level.isTable) taken.took.ordered
  · rintro rfl
    exact plain table
  · have left : after.free = Function.update vm.free frame false := taken.took.left
    rw [left]
    by_cases same : other = frame
    · rw [same, Function.update_self, Function.update_self]
      exact iff_of_false Role.noConfusion Bool.noConfusion
    · rw [Function.update_of_ne same, Function.update_of_ne same, tables.free]
  · by_cases same : other = frame
    · rw [same]
      exact taken.took.memory
    · rw [Function.update_of_ne same] at is_free
      exact tables.inside other (by rw [is_free]; exact Role.noConfusion)

/-- The frame is idle. -/
theorem counted (taken : Taken vm after frame) (counted : Counted vm roots kernel idle held role) :
    Counted after roots kernel (fun other => idle other ∨ other = frame) held (Function.update role frame .other) := by
  have was := taken.was_free counted.tables
  have unused : mappers vm roots frame = ∅ := counted.no_mappers (by rw [was]; exact Role.noConfusion)
  have looks : ∀ root ∈ roots, ∀ page, Plain page → Paging.look after root page = Paging.look vm root page :=
    fun root member page plain => taken.look counted.tables (counted.rooted root member) plain.1
  have apart : ∀ {other}, role other ≠ .free → other ≠ frame := by
    rintro other used rfl
    exact used was
  refine ⟨taken.tables counted.tables, fun root member => ?_, fun other is_root => ?_, fun other own => ?_,
    fun root member page plain entry found => ?_, fun other low high plain outside => ?_, fun other => ?_⟩
  · rw [Function.update_of_ne (apart (by rw [counted.rooted root member]; exact Role.noConfusion)), counted.rooted root member]
  · by_cases same : other = frame
    · rw [same, Function.update_self] at is_root
      cases is_root
    · rw [Function.update_of_ne same] at is_root
      exact counted.only other is_root
  · rw [Function.update_of_ne (apart (by rw [counted.reserved other own]; exact Role.noConfusion)), counted.reserved other own]
  · rw [looks root member page plain] at found
    have data := counted.mapped root member page plain entry found
    refine ⟨?_, data.2⟩
    rw [Function.update_of_ne (apart (by rw [data.1]; exact Role.noConfusion)), data.1]
  · rw [taken.ref, mappers_congr looks]
    refine counted.counted other low high (fun table => plain ?_) outside
    exact (isTable_update (taken.not_table counted.tables) (.inr rfl) other).mpr table
  · rw [mappers_congr looks, counted.unmapped]
    by_cases same : other = frame
    · subst same
      refine iff_of_true (.inr rfl) ⟨⟨Function.update_self .., fun own => ?_, taken.took.memory⟩, unused⟩
      have other := counted.reserved _ own
      rw [was] at other
      cases other
    · rw [DataFrame, DataFrame, Function.update_of_ne same]
      simp only [same, or_false]

theorem touched (taken : Taken vm after frame) (root : Nat) (pages : Nat → Prop) (tables : Tables vm role) :
    Touched vm after role (Function.update role frame .other) root pages := by
  refine ⟨fun other table => Function.update_of_ne ?_ _ _, fun root' page' slot is_root own at_slot => ?_,
    fun root' page' is_root own _ => taken.look tables is_root own, fun root' is_root => ?_, taken.config⟩
  · rintro rfl
    exact taken.not_table tables table
  · rw [← at_slot]
    exact tables.slotOf_same is_root own fun other n level => taken.is_table tables level.isTable
  · rw [taken.is_table tables (.inl is_root)]

theorem spare (taken : Taken vm after frame) : spare after + 1 = spare vm :=
  spare_taken taken.took

end Taken

omit [LawfulManager α] in
theorem missing_zero (at_slot : slotOf vm root page = some slot) : missing vm root page = 0 := by
  have there : child vm root (page / 512 / 512 % 512) ≠ none := by
    intro absent
    rw [slotOf_absent absent] at at_slot
    cases at_slot
  rw [missing, if_neg there, at_slot, if_neg (by simp)]

theorem Counted.congr (counted : Counted vm roots kernel idle held role) {idle' : Nat → Prop}
    (same : ∀ frame, idle' frame ↔ idle frame) : Counted vm roots kernel idle' held role :=
  ⟨counted.tables, counted.rooted, counted.only, counted.reserved, counted.mapped, counted.counted,
    fun frame => (same frame).trans (counted.unmapped frame)⟩

/-- A frame is taken and the content of another copied to it. -/
def withCopy (vm : Memory α) (pmm : α) (frame source : Nat) : Memory α :=
  { takePage vm pmm with mem := Function.update vm.mem frame (vm.mem source) }

/-- A page has a frame of its own with the content of another. -/
structure Copied (vm after : Memory α) (role role' : Nat → Role) (roots : Finset Nat) (target page entry frame : Nat) : Prop where
  touched : Touched vm after role role' target (fun other => other = page)
  fresh : vm.free frame = true
  mapped : look after target page = some (mapping frame (pteUser entry))
  alone : mappers after roots frame = {(target, page)}
  content : after.mem frame = vm.mem (ppn entry)
  data : ∀ other, role other = .other → after.mem other = vm.mem other ∧
    (role' other = .other ∨ ∃ old, look vm target page = some old ∧ ppn old = other)

/-- One page of `copy_range`. -/
theorem copyEntry_settles {target start : Nat} (takes_back : look vm target (pageOf start) ≠ none → TakesBack α halt)
    (counted : Counted vm roots kernel idle (fun _ => 0) role) (member : target ∈ roots)
    (plain : Plain (pageOf start)) (maps : valid entry = true) (data : DataFrame role kernel (ppn entry))
    (out : spare vm < missing vm target (pageOf start) + 1 → halt) :
    Settles (copyEntry target start entry)
      (fun _ after => ∃ role', Counted after roots kernel idle (fun _ => 0) role' ∧
        (∃ frame, Copied vm after role role' roots target (pageOf start) entry frame) ∧
        spare vm ≤ spare after + missing vm target (pageOf start) + 1)
      (fun _ after => ∃ role', Counted after roots kernel idle (fun _ => 0) role' ∧ Extended vm after role role')
      halt vm := by
  have at_root := counted.rooted target member
  have small : pteUser entry < 1024 := by
    unfold pteUser
    omega
  refine .bind ((getPte_create counted.tables at_root plain.1 fun short _ => out (by omega)).weaken (fun found mid held => ?_)
    fun _ _ held => held)
  obtain ⟨⟨role1, ext⟩, _, there⟩ := held
  have counted1 := counted.extended ext
  cases found with
  | none => exact .fail ⟨role1, counted1, ext⟩
  | some slot =>
    obtain ⟨at_slot, used⟩ := there slot rfl
    refine .bind (pte2page_settles maps data.2.2 (.bind (allocPage_settles counted1.tables.ordered (fun frame pmm took => ?_)
      (fun empty _ => .stop (out (by omega))) fun empty _ => out (by omega))))
    have taken : Taken mid (withCopy mid pmm frame (ppn entry)) frame :=
      ⟨took, fun other apart => Function.update_of_ne apart _ _, rfl, rfl, rfl⟩
    have counted2 := taken.counted counted1
    have at_root1 := counted1.rooted target member
    have at_root2 := counted2.rooted target member
    have not_idle : ¬ idle frame := by
      intro resting
      have other := ((counted1.unmapped frame).mp resting).1.1
      rw [taken.was_free counted1.tables] at other
      cases other
    have data2 : DataFrame (Function.update role1 frame .other) kernel frame := by
      refine ⟨Function.update_self .., fun own => ?_, took.memory⟩
      have other := counted1.reserved frame own
      rw [taken.was_free counted1.tables] at other
      cases other
    have first := (ext.changed target (pageOf start)).touched
    have second := taken.touched target (fun other => other = pageOf start) counted1.tables
    have at_slot2 := second.slots target (pageOf start) slot at_root1 plain.1 at_slot
    have looks : look (withCopy mid pmm frame (ppn entry)) target (pageOf start) = look vm target (pageOf start) := by
      rw [taken.look counted1.tables at_root1 plain.1, ext.looks target _ at_root plain.1]
    refine .bind (.modify (.bind (.attempt ((pageInsert_settles (fun there => takes_back (looks ▸ there)) counted2 member plain data2 small
      (fun short => by rw [missing_zero at_slot2] at short; omega)).weaken (fun _ after held => ?_) fun _ after held => ?_))))
    · obtain ⟨role3, counted3, changed, more⟩ := held
      rw [missing_zero at_slot2] at more
      have one_less := taken.spare
      refine .pure ⟨role3, counted3.congr fun other => ?_, ⟨frame, ?_⟩, by omega⟩
      · refine ⟨fun resting => ⟨.inl resting, ?_⟩, fun both => both.1.resolve_right both.2⟩
        rintro rfl
        exact not_idle resting
      have was_free : role frame = .free := by
        by_contra used
        rw [← ext.kept frame used] at used
        exact used (taken.was_free counted1.tables)
      have none_maps : mappers (withCopy mid pmm frame (ppn entry)) roots frame = ∅ := ((counted2.unmapped frame).mp (.inr rfl)).2
      have plain3 : ¬ IsTable role3 frame := by
        rcases changed.freed frame (Function.update_self ..) with other | ⟨free, _⟩
        · rintro (never | ⟨_, _, _, never⟩) <;> rw [other] at never <;> cases never
        · rintro (never | ⟨_, _, _, never⟩) <;> rw [free] at never <;> cases never
      refine ⟨(first.trans second).trans changed.touched, (counted.tables.free frame).mp was_free, ?_, ?_, ?_,
        fun other is_other => ?_⟩
      · rw [changed.looks target _ at_root2 plain.1, if_pos ⟨rfl, rfl⟩]
      · rw [mappers_changed member plain fun root' member' page' plain' =>
          changed.looks root' page' (counted2.rooted root' member') plain'.1, Option.map_some, ppn_mapping small,
          if_pos rfl, none_maps]
        rfl
      · rw [changed.mem frame plain3]
        refine (Function.update_self ..).trans (ext.data _ (.inl ?_)).1
        rw [ext.kept _ (by rw [data.1]; exact Role.noConfusion), data.1]
      · have apart : other ≠ frame := by
          rintro rfl
          rw [was_free] at is_other
          cases is_other
        have other1 : role1 other = .other := by rw [ext.kept other (by rw [is_other]; exact Role.noConfusion), is_other]
        have other2 : Function.update role1 frame .other other = .other := by rw [Function.update_of_ne apart, other1]
        have use := changed.freed other other2
        have plain' : ¬ IsTable role3 other := by
          rcases use with same | ⟨same, _⟩ <;> rintro (never | ⟨_, _, _, never⟩) <;> rw [same] at never <;> cases never
        refine ⟨?_, use.imp_right fun ⟨_, old, found, at_frame⟩ => ⟨old, ?_, at_frame⟩⟩
        · rw [changed.mem other plain', taken.mem other apart, (ext.data other (.inl other1)).1]
        · rw [taken.look counted1.tables at_root1 plain.1, ext.looks target _ at_root plain.1] at found
          exact found
    · obtain ⟨short, _⟩ := held
      rw [missing_zero at_slot2] at short
      omega

/-! ## The frames that a copy needs -/

omit [LawfulManager α] in
/-- A frame for each page and for each table that is missing on the way to one. -/
def need (vm : Memory α) (target : Nat) (pages : Finset Nat) : Nat :=
  pages.card + ((pages.image (· / 512)).filter fun table => slotOf vm target (table * 512) = none).card +
    ((pages.image (· / 512 / 512)).filter fun table => child vm target (table % 512) = none).card

section
variable {pages pages' : Finset Nat} {target source start finish : Nat}

section
omit [LawfulManager α]

theorem need_mono (fewer : pages' ⊆ pages) : need vm target pages' ≤ need vm target pages :=
  Nat.add_le_add (Nat.add_le_add (Finset.card_le_card fewer)
    (Finset.card_le_card (Finset.filter_subset_filter _ (Finset.image_subset_image fewer))))
    (Finset.card_le_card (Finset.filter_subset_filter _ (Finset.image_subset_image fewer)))

theorem slotOf_none (page : Nat) : slotOf vm target (page / 512 * 512) = none ↔ slotOf vm target page = none := by
  have same : page / 512 * 512 / 512 = page / 512 := by omega
  simp only [slotOf, Option.bind_eq_none_iff, Option.map_eq_none_iff, same]

theorem card_drop (few many : Finset Nat) (missing : Prop) [Decidable missing] (item : Nat) (fewer : few ⊆ many)
    (drop : missing → item ∈ many ∧ item ∉ few) : few.card + (if missing then 1 else 0) ≤ many.card := by
  split
  · rename_i absent
    exact Finset.card_lt_card ⟨fewer, fun back => (drop absent).2 (back (drop absent).1)⟩
  · exact Finset.card_le_card fewer

/-- Where tables stay, no more is needed. -/
theorem need_kept (own : ∀ other ∈ pages, Own other)
    (slots : ∀ other, Own other → slotOf vm target other ≠ none → slotOf after target other ≠ none)
    (tables : ∀ index, index < width 2 → child vm target index ≠ none → child after target index ≠ none) :
    need after target pages ≤ need vm target pages := by
  refine Nat.add_le_add (Nat.add_le_add_left (Finset.card_le_card fun table absent => ?_) _) (Finset.card_le_card fun table absent => ?_)
  all_goals
    obtain ⟨image, absent⟩ := Finset.mem_filter.mp absent
    obtain ⟨page, is_page, rfl⟩ := Finset.mem_image.mp image
    refine Finset.mem_filter.mpr ⟨image, by_contra fun there => ?_⟩
  · rw [slotOf_none] at absent there
    exact slots page (own page is_page) there absent
  · exact tables _ (own page is_page).first there absent

/-- A page that has its frame needs no more. -/
theorem need_step (member : page ∈ pages) (own : ∀ other ∈ pages, Own other)
    (slots : ∀ other, Own other → slotOf vm target other ≠ none → slotOf after target other ≠ none)
    (tables : ∀ index, index < width 2 → child vm target index ≠ none → child after target index ≠ none)
    (there : slotOf after target page ≠ none) :
    need after target (pages.erase page) + missing vm target page + 1 ≤ need vm target pages := by
  have size := Finset.card_erase_add_one member
  have lower : ((pages.erase page).image (· / 512)).filter (fun table => slotOf after target (table * 512) = none) ⊆
      (pages.image (· / 512)).filter fun table => slotOf vm target (table * 512) = none := by
    intro table in_after
    obtain ⟨image, absent⟩ := Finset.mem_filter.mp in_after
    have image' := Finset.image_subset_image (Finset.erase_subset _ _) image
    obtain ⟨other, is_page, rfl⟩ := Finset.mem_image.mp image'
    refine Finset.mem_filter.mpr ⟨image', by_contra fun there => ?_⟩
    rw [slotOf_none] at absent there
    exact slots other (own other is_page) there absent
  have upper : ((pages.erase page).image (· / 512 / 512)).filter (fun table => child after target (table % 512) = none) ⊆
      (pages.image (· / 512 / 512)).filter fun table => child vm target (table % 512) = none := by
    intro table in_after
    obtain ⟨image, absent⟩ := Finset.mem_filter.mp in_after
    have image' := Finset.image_subset_image (Finset.erase_subset _ _) image
    obtain ⟨other, is_page, rfl⟩ := Finset.mem_image.mp image'
    exact Finset.mem_filter.mpr ⟨image', by_contra fun there => tables _ (own other is_page).first there absent⟩
  have low := card_drop _ _ (slotOf vm target page = none) (page / 512) lower fun absent =>
    ⟨Finset.mem_filter.mpr ⟨Finset.mem_image_of_mem _ member, (slotOf_none page).mpr absent⟩,
      fun still => there ((slotOf_none page).mp (Finset.mem_filter.mp still).2)⟩
  have high := card_drop _ _ (child vm target (page / 512 / 512 % 512) = none) (page / 512 / 512) upper
    fun absent => ⟨Finset.mem_filter.mpr ⟨Finset.mem_image_of_mem _ member, absent⟩,
      fun still => there (slotOf_absent (Finset.mem_filter.mp still).2)⟩
  unfold need missing
  omega

theorem missing_need (member : page ∈ pages) : missing vm target page + 1 ≤ need vm target pages := by
  have size := Finset.card_pos.mpr ⟨page, member⟩
  have low := card_drop ∅ ((pages.image (· / 512)).filter fun table => slotOf vm target (table * 512) = none)
    (slotOf vm target page = none) (page / 512) (Finset.empty_subset _) fun absent => ⟨Finset.mem_filter.mpr ⟨Finset.mem_image_of_mem _ member,
      (slotOf_none page).mpr absent⟩, Finset.notMem_empty _⟩
  have high := card_drop ∅ ((pages.image (· / 512 / 512)).filter fun table => child vm target (table % 512) = none)
    (child vm target (page / 512 / 512 % 512) = none) (page / 512 / 512) (Finset.empty_subset _) fun absent => ⟨Finset.mem_filter.mpr ⟨Finset.mem_image_of_mem _ member, absent⟩,
      Finset.notMem_empty _⟩
  rw [Finset.card_empty] at low high
  unfold need missing
  omega

end
end

/-! ## Ranges that are copied -/

/-- Each page of a range that is mapped has a new frame with the same content and permissions,
and no frame is lost. -/
structure Duplicated (vm after : Memory α) (role role' : Nat → Role) (roots : Finset Nat) (target source : Nat)
    (pages : Nat → Prop) : Prop where
  absent : ∀ page, pages page → look vm source page = none → look after target page = none
  present : ∀ page, pages page → ∀ entry, look vm source page = some entry → ∃ frame, vm.free frame = true ∧
    look after target page = some (mapping frame (pteUser entry)) ∧ mappers after roots frame = {(target, page)} ∧
    after.mem frame = vm.mem (ppn entry)
  kept : ∀ frame, role frame = .other → role' frame = .other ∧ after.mem frame = vm.mem frame

/-- What a copy to a directory leaves; to an empty range of another directory it is a duplicate. -/
structure Copies (vm after : Memory α) (role role' : Nat → Role) (roots : Finset Nat) (target source : Nat)
    (pages : Nat → Prop) : Prop where
  touched : Touched vm after role role' target pages
  duplicated : source ≠ target → (∀ page, pages page → look vm target page = none) →
    Duplicated vm after role role' roots target source pages

section
variable {target source start finish : Nat} {pages more all idle' : Nat → Prop}

/-- Frames that are mapped keep their mappers, as the copy takes free ones. -/
theorem Duplicated.mappers (second : Duplicated middle after role' role'' roots target source more)
    (touched : Touched middle after role' role'' target more) (counted : Counted middle roots kernel idle held role')
    (empty : ∀ page, more page → look middle target page = none) (other : role' frame = .other) :
    mappers after roots frame = Paging.mappers middle roots frame := by
  ext ⟨root, page⟩
  rw [mem_mappers, mem_mappers]
  refine and_congr_right fun member => and_congr_right fun plain => ?_
  by_cases here : root = target ∧ more page
  · obtain ⟨rfl, copied⟩ := here
    rw [empty page copied]
    refine iff_of_false ?_ (by rintro ⟨_, never, _⟩; cases never)
    rintro ⟨entry, found, maps⟩
    cases was : look middle source page with
    | none =>
      rw [second.absent page copied was] at found
      cases found
    | some old =>
      obtain ⟨new, free, mapped, _⟩ := second.present page copied old was
      rw [mapped] at found
      obtain rfl := Option.some.inj found
      have small : pteUser old < 1024 := by
        unfold pteUser
        omega
      rw [ppn_mapping small] at maps
      rw [← maps, (counted.tables.free new).mpr free] at other
      cases other
  · rw [touched.elsewhere root page (counted.rooted root member) plain.1 fun same copied => here ⟨same, copied⟩]

theorem Duplicated.trans (first : Duplicated vm middle role role' roots target source pages)
    (second : Duplicated middle after role' role'' roots target source more)
    (kept : Touched vm middle role role' target pages) (touched : Touched middle after role' role'' target more)
    (counted : Counted vm roots kernel idle held role) (counted' : Counted middle roots kernel idle' held role')
    (member : target ∈ roots) (source_member : source ∈ roots) (differ : source ≠ target)
    (own : ∀ page, all page → Own page) (plain : ∀ page, all page → look vm source page ≠ none → Plain page)
    (empty : ∀ page, more page → look middle target page = none)
    (apart : ∀ page, pages page → ¬ more page) (split : ∀ page, all page ↔ pages page ∨ more page) :
    Duplicated vm after role role'' roots target source all := by
  have at_root' := counted'.rooted target member
  have same_source : ∀ page, Own page → look middle source page = look vm source page := fun page own =>
    kept.elsewhere source page (counted.rooted source source_member) own fun same => absurd same differ
  have back : ∀ frame, middle.free frame = true → vm.free frame = true := by
    intro frame free
    rw [← counted'.tables.free] at free
    rw [← counted.tables.free]
    by_contra used
    by_cases other : role frame = .other
    · rw [(first.kept frame other).1] at free
      cases free
    · have table : IsTable role frame := by
        by_contra plain
        rcases not_table plain with same | same
        · exact other same
        · exact used same
      rw [kept.kept frame table] at free
      exact used free
  refine ⟨fun page here none => ?_, fun page here entry found => ?_, fun frame other => ?_⟩
  · rcases (split page).mp here with now | later
    · rw [touched.elsewhere target page at_root' (own page here) fun _ => apart page now]
      exact first.absent page now none
    · exact second.absent page later (by rw [same_source page (own page here), none])
  · rcases (split page).mp here with now | later
    · obtain ⟨frame, free, mapped, alone, content⟩ := first.present page now entry found
      have small : pteUser entry < 1024 := by
        unfold pteUser
        omega
      have other : role' frame = .other := by
        have data := counted'.mapped target member page (plain page here (by rw [found]; exact Option.some_ne_none _)) _ mapped
        rw [ppn_mapping small] at data
        exact data.1
      refine ⟨frame, free, ?_, ?_, ?_⟩
      · rw [touched.elsewhere target page at_root' (own page here) fun _ => apart page now, mapped]
      · rw [second.mappers touched counted' empty other, alone]
      · rw [(second.kept frame other).2, content]
    · obtain ⟨frame, free, mapped, alone, content⟩ :=
        second.present page later entry (by rw [same_source page (own page here), found])
      have data := counted.mapped source source_member page (plain page here (by rw [found]; exact Option.some_ne_none _)) entry found
      exact ⟨frame, back frame free, mapped, alone, content.trans (first.kept _ data.1).2⟩
  · obtain ⟨other', mem⟩ := first.kept frame other
    obtain ⟨other'', mem'⟩ := second.kept frame other'
    exact ⟨other'', mem'.trans mem⟩

theorem Copies.trans (first : Copies vm middle role role' roots target source pages)
    (second : Copies middle after role' role'' roots target source more)
    (counted : Counted vm roots kernel idle held role) (counted' : Counted middle roots kernel idle' held role')
    (member : target ∈ roots) (source_member : source ∈ roots) (own : ∀ page, all page → Own page)
    (plain : ∀ page, all page → look vm source page ≠ none → Plain page) (apart : ∀ page, pages page → ¬ more page) (split : ∀ page, all page ↔ pages page ∨ more page) :
    Copies vm after role role'' roots target source all := by
  refine ⟨(first.touched.wider fun page here => (split page).mpr (.inl here)).trans
    (second.touched.wider fun page here => (split page).mpr (.inr here)), fun differ empty => ?_⟩
  have empty' : ∀ page, more page → look middle target page = none := fun page later => by
    have here := (split page).mpr (.inr later)
    rw [first.touched.elsewhere target page (counted.rooted target member) (own page here)
      fun _ now => apart page now later, empty page here]
  exact (first.duplicated differ fun page now => empty page ((split page).mpr (.inl now))).trans
    (second.duplicated differ empty') first.touched second.touched counted counted' member source_member differ own
    plain empty' apart split

/-- Nothing is copied where nothing is mapped. -/
theorem Copies.none (absent : ∀ page, pages page → look vm source page = none) :
    Copies vm vm role role roots target source pages := by
  refine ⟨.refl, fun _ empty => ⟨fun page here _ => empty page here, fun page here entry found => ?_, fun _ other => ⟨other, rfl⟩⟩⟩
  rw [absent page here] at found
  cases found

/-- One page is copied. -/
theorem Copied.copies (copied : Copied vm after role role' roots target page entry frame)
    (found : look vm source page = some entry) :
    Copies vm after role role' roots target source (fun other => other = page) := by
  refine ⟨copied.touched, fun _ empty => ⟨fun other here none => ?_, fun other here entry' found' => ?_, fun other is_other => ?_⟩⟩
  · rw [here, found] at none
    cases none
  · subst here
    rw [found] at found'
    obtain rfl := Option.some.inj found'
    exact ⟨frame, copied.fresh, copied.mapped, copied.alone, copied.content⟩
  · obtain ⟨mem, still | ⟨old, lost, _⟩⟩ := copied.data other is_other
    · exact ⟨still, mem⟩
    · rw [empty page rfl] at lost
      cases lost

instance (start finish : Nat) : DecidablePred (Within start finish) := fun page =>
  inferInstanceAs (Decidable (start / pgsize ≤ page ∧ page < finish / pgsize))

theorem Touched.child_there (touched : Touched vm after role role' target pages) (tables : Tables vm role)
    (tables' : Tables after role') (is_root : role target = .root) {index : Nat} (inside : index < width 2)
    (there : child vm target index ≠ none) : child after target index ≠ none := by
  obtain ⟨table, found⟩ := Option.ne_none_iff_exists'.mp there
  have in_root := (tables.down target 1 index is_root inside table).mp found
  have still : role' table = .table 1 target index := by rw [touched.kept table (.inr ⟨_, _, _, in_root⟩), in_root]
  have at_root' : role' target = .root := touched.is_root is_root
  rw [(tables'.down target 1 index at_root' inside table).mpr still]
  exact Option.some_ne_none _

/-- Some page has a mapping already where its copy is to be. -/
def Replaces (vm : Memory α) (target source : Nat) (pages : Nat → Prop) : Prop :=
  ∃ page, pages page ∧ look vm source page ≠ none ∧ look vm target page ≠ none

omit [LawfulManager α] in
theorem Replaces.of_same {pages fewer : Nat → Prop} (replaces : Replaces after target source fewer)
    (some : ∀ page, fewer page → pages page)
    (same : ∀ root, root = target ∨ root = source → ∀ page, fewer page → look after root page = look vm root page) :
    Replaces vm target source pages := by
  obtain ⟨page, inside, there, mapped⟩ := replaces
  rw [same source (.inr rfl) page inside] at there
  rw [same target (.inl rfl) page inside] at mapped
  exact ⟨page, some page inside, there, mapped⟩

/-- `copy_range`, from any page of the range on. -/
theorem copyLoop_settles (member : target ∈ roots) (source_member : source ∈ roots) (rounds : Nat) {vm : Memory α}
    {role : Nat → Role} {start : Nat} {present : Finset Nat} (counted : Counted vm roots kernel idle (fun _ => 0) role)
    (range : Range start finish) (enough : finish / pgsize ≤ start / pgsize + rounds)
    (plain : ∀ page, Within start finish page → look vm source page ≠ none → Plain page) (own : ∀ page ∈ present, Own page)
    (all : ∀ page, Within start finish page → look vm source page ≠ none → page ∈ present)
    (takes_back : Replaces vm target source (Within start finish) → TakesBack α halt)
    (out : spare vm < need vm target present → halt) :
    Settles (copyLoop target source finish rounds start) (fun _ after => ∃ role',
        Counted after roots kernel idle (fun _ => 0) role' ∧
        Copies vm after role role' roots target source (Within start finish) ∧
        spare vm + need after target (present.filter fun page => ¬ Within start finish page) ≤
          spare after + need vm target present)
      (fun _ after => ∃ role', Counted after roots kernel idle (fun _ => 0) role' ∧
        Touched vm after role role' target (Within start finish)) halt vm := by
  induction rounds generalizing vm role start present with
  | zero =>
    have inside := range.at_start.1.2
    omega
  | succ rounds ih =>
    have at_root := counted.rooted target member
    have at_source := counted.rooted source source_member
    obtain ⟨inside, same⟩ := range.at_start
    have here := range.own inside
    refine .bind ((getPte_lookup counted.tables at_source (by rw [same]; exact here)).weaken (fun found vm held => ?_)
      fun _ _ held => absurd held id)
    obtain ⟨at_slot, rfl⟩ := held
    rw [same] at at_slot
    cases found with
    | none =>
      have absent : ∀ page, Within start (nextTable start) page → look vm source page = none :=
        fun page within => look_absent (slotOf_skip at_slot.symm within)
      have step := lt_nextTable start
      simp only
      split
      · rename_i less
        have rest := range.table_aligned.resolve_right (by omega)
        have split := rest.split step.le
        refine (ih counted rest (by omega) (fun page within => plain page ((split page).mpr (.inr within))) own
          (fun page within => all page ((split page).mpr (.inr within)))
          (fun replaces => takes_back (replaces.of_same (fun page within => (split page).mpr (.inr within)) fun _ _ _ _ => rfl))
          out).weaken (fun _ after held => ?_)
          fun _ after held => ?_
        · obtain ⟨role', counted', copies, needs⟩ := held
          refine ⟨role', counted', (Copies.none absent).trans copies counted counted member source_member (fun page => range.own) plain
            (fun page now later => ?_) split, (Nat.add_le_add_left (need_mono ?_) _).trans needs⟩
          · exact absurd later.1 (Nat.not_le.mpr now.2)
          · exact Finset.monotone_filter_right _ fun page _ out within => out ((split page).mpr (.inr within))
        · obtain ⟨role', counted', touched⟩ := held
          exact ⟨role', counted', touched.wider fun page within => (split page).mpr (.inr within)⟩
      · rename_i done
        refine .pure ⟨role, counted, Copies.none fun page within => absent page ⟨within.1, ?_⟩,
          Nat.add_le_add_left (need_mono (Finset.filter_subset _ _)) _⟩
        exact within.2.trans_le (Nat.div_le_div_right (by omega))
    | some slot =>
      refine .bind (.gets ?_)
      have found : look vm source (start / pgsize) =
          if valid (vm.mem slot.1 slot.2) then some (vm.mem slot.1 slot.2) else none := by
        rw [look, ← at_slot, Option.bind_some]
      have copied : Settles (onlyIf (valid (vm.mem slot.1 slot.2)) (copyEntry target start (vm.mem slot.1 slot.2)))
          (fun _ after => ∃ role', Counted after roots kernel idle (fun _ => 0) role' ∧
            Copies vm after role role' roots target source (fun page => page = start / pgsize) ∧
            ∃ left ⊆ present, (∀ page ∈ present, page ≠ start / pgsize → page ∈ left) ∧
              spare vm + need after target left ≤ spare after + need vm target present)
          (fun _ after => ∃ role', Counted after roots kernel idle (fun _ => 0) role' ∧
            Touched vm after role role' target (fun page => page = start / pgsize)) halt vm := by
        refine .onlyIf (fun maps => ?_) fun unmapped => ?_
        · rw [if_pos maps] at found
          have listed := all _ inside (by rw [found]; exact Option.some_ne_none _)
          have here := plain _ inside (by rw [found]; exact Option.some_ne_none _)
          have data := counted.mapped source source_member _ here _ found
          have bound : missing vm target (start / pgsize) + 1 ≤ need vm target present := missing_need listed
          have back : look vm target (start / pgsize) ≠ none → TakesBack α halt := fun there =>
            takes_back ⟨_, inside, by rw [found]; exact Option.some_ne_none _, there⟩
          rw [← same] at here bound back
          refine (copyEntry_settles back counted member here maps data fun short => out (by omega)).weaken
            (fun _ after held => ?_) fun _ after held => ?_
          · obtain ⟨role', counted', ⟨frame, copied⟩, spent⟩ := held
            rw [same] at copied spent
            refine ⟨role', counted', copied.copies found, _, Finset.erase_subset _ _,
              fun page is_page apart => Finset.mem_erase.mpr ⟨apart, is_page⟩, ?_⟩
            have there : slotOf after target (start / pgsize) ≠ none := by
              intro absent
              have mapped := copied.mapped
              rw [look_absent absent] at mapped
              cases mapped
            have needs : need after target (present.erase (start / pgsize)) + missing vm target (start / pgsize) + 1 ≤
                need vm target present := need_step listed own (fun other own' there' => ?_)
              (fun index inside' => copied.touched.child_there counted.tables counted'.tables at_root inside') there
            · omega
            · obtain ⟨slot', at_slot'⟩ := Option.ne_none_iff_exists'.mp there'
              rw [copied.touched.slots target other slot' at_root own' at_slot']
              exact Option.some_ne_none _
          · obtain ⟨role', counted', ext⟩ := held
            exact ⟨role', counted', (ext.changed target (start / pgsize)).touched⟩
        · rw [unmapped] at found
          exact ⟨role, counted, .none fun page at_page => by rw [at_page, found]; rfl, present, subset_rfl,
            fun _ is_page _ => is_page, le_rfl⟩
      refine .bind (copied.weaken (fun _ after held => ?_) fun _ after held => ?_)
      · obtain ⟨role1, counted1, first, left, fewer, others, needs⟩ := held
        have step := next_page start
        split
        · rename_i less
          have rest := range.next_aligned.resolve_right (by omega)
          have split : ∀ page, Within start finish page ↔ page = start / pgsize ∨ Within (start + pgsize) finish page :=
            fun page => by rw [rest.split (by omega), Range.within_next]
          have later : ∀ page, page = start / pgsize → ¬ Within (start + pgsize) finish page := fun page now within => by
            have := within.1
            omega
          have looks : ∀ root, root = target ∨ root = source → ∀ page, Within (start + pgsize) finish page →
              look after root page = look vm root page := by
            intro root either page within
            have is_root : role root = .root := by
              rcases either with rfl | rfl
              · exact at_root
              · exact at_source
            exact first.touched.elsewhere root page is_root (rest.own within) fun _ now => later page now within
          have source_looks := looks source (.inr rfl)
          refine (ih counted1 rest (by omega)
            (fun page within there => plain page ((split page).mpr (.inr within)) (source_looks page within ▸ there))
            (fun page is_page => own page (fewer is_page)) (fun page within there => ?_) (fun replaces => ?_) fun short => ?_).weaken
            (fun _ final held => ?_) fun _ final held => ?_
          · rw [source_looks page within] at there
            exact others page (all page ((split page).mpr (.inr within)) there) fun now => later page now within
          · exact takes_back (replaces.of_same (fun page within => (split page).mpr (.inr within)) looks)
          · exact out (by omega)
          · obtain ⟨role2, counted2, second, needs'⟩ := held
            have fewer' : need final target (present.filter fun page => ¬ Within start finish page) ≤
                need final target (left.filter fun page => ¬ Within (start + pgsize) finish page) := by
              apply need_mono
              intro page kept
              obtain ⟨is_page, out⟩ := Finset.mem_filter.mp kept
              rw [split] at out
              exact Finset.mem_filter.mpr ⟨others page is_page fun now => out (.inl now), fun within => out (.inr within)⟩
            exact ⟨role2, counted2, first.trans second counted counted1 member source_member (fun page => range.own) plain later split,
              by omega⟩
          · obtain ⟨role2, counted2, touched⟩ := held
            exact ⟨role2, counted2, (first.touched.wider fun page now => (split page).mpr (.inl now)).trans
              (touched.wider fun page within => (split page).mpr (.inr within))⟩
        · rename_i done
          have one := range.one_page (by omega)
          have only : (fun page => page = start / pgsize) = Within start finish := funext fun page => propext (by
            rw [one, Range.within_next])
          rw [only] at first
          refine .pure ⟨role1, counted1, first, (Nat.add_le_add_left (need_mono fun page kept => ?_) _).trans needs⟩
          obtain ⟨is_page, out⟩ := Finset.mem_filter.mp kept
          refine others page is_page fun now => out ?_
          rwa [← only]
      · obtain ⟨role', counted', touched⟩ := held
        exact ⟨role', counted', touched.wider fun page now => now ▸ inside⟩

/-- `copy_range`. -/
theorem copyRange_settles (counted : Counted vm roots kernel idle (fun _ => 0) role) (member : target ∈ roots)
    (source_member : source ∈ roots) (fails : ¬ (Range start finish ∧ userbase ≤ start) → halt)
    (plain : ∀ page, Within start finish page → look vm source page ≠ none → Plain page) {present : Finset Nat} (own : ∀ page ∈ present, Own page)
    (all : ∀ page, Within start finish page → look vm source page ≠ none → page ∈ present)
    (takes_back : Replaces vm target source (Within start finish) → TakesBack α halt)
    (out : spare vm < need vm target present → halt) :
    Settles (copyRange target source start finish) (fun _ after => ∃ role',
        Counted after roots kernel idle (fun _ => 0) role' ∧
        Copies vm after role role' roots target source (Within start finish) ∧
        spare vm + need after target (present.filter fun page => ¬ Within start finish page) ≤
          spare after + need vm target present)
      (fun _ after => ∃ role', Counted after roots kernel idle (fun _ => 0) role' ∧
        Touched vm after role role' target (Within start finish)) halt vm :=
  range_settles fails fun range =>
    copyLoop_settles member source_member _ counted range (by omega) plain own all takes_back out

end

end Ucore.Paging
