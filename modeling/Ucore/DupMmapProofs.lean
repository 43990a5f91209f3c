import Ucore.MmMapProofs

/-! The copy of an address space. Each vma is inserted in front of those copied
before it, and each page in it gets a frame of its own; a page of a device in the
way stops the copy at `pte2page`, so that what is copied are pages of memory. -/
namespace Ucore.MmMap
open Call Paging UserMem UserMemProofs

variable {α : Type}

/-! ## Frames of the tables are not the heap's -/

section
variable [PmmManager α] {room : Nat → Bool}

theorem allocPage_room : Keeps (fun vm : Memory α => vm.room = room) allocPage := allocPage_keeps fun _ _ same => same

theorem freePage_room (page : Nat) : Keeps (fun vm : Memory α => vm.room = room) (freePage page) :=
  keeps_bind (onPmm_keeps (fun _ _ same => same) _) fun _ => keeps_modify fun _ same => same

theorem makeTable_room (table index : Nat) (create : Bool) : Keeps (fun vm : Memory α => vm.room = room) (makeTable table index create) := by
  refine keeps_bind (keeps_gets _) fun entry => ?_
  split
  · exact keeps_pure
  split
  · exact keeps_pure
  refine keeps_bind allocPage_room fun page => ?_
  cases page with
  | none => exact keeps_pure
  | some page =>
    refine keeps_bind (keeps_modify fun _ same => same) fun _ => keeps_bind (keeps_modify fun _ same => same) fun _ => ?_
    exact keeps_bind (keeps_modify fun _ same => same) fun _ => keeps_pure

omit [PmmManager α] in
theorem tableAt_room (table index : Nat) : Keeps (fun vm : Memory α => vm.room = room) (tableAt table index) :=
  keeps_bind (keeps_gets _) fun _ => keeps_bind (keeps_assert _) fun _ => keeps_pure

theorem getPte_room (pgdir la : Nat) (create : Bool) : Keeps (fun vm : Memory α => vm.room = room) (getPte pgdir la create) := by
  refine keeps_bind (makeTable_room _ _ _) fun made => ?_
  split
  · exact keeps_pure
  refine keeps_bind (tableAt_room _ _) fun table => keeps_bind (makeTable_room _ _ _) fun made => ?_
  split
  · exact keeps_pure
  · exact keeps_bind (tableAt_room _ _) fun _ => keeps_pure

omit [PmmManager α] in
theorem pte2page_room (entry : Nat) : Keeps (fun vm : Memory α => vm.room = room) (pte2page entry) :=
  keeps_bind (keeps_assert _) fun _ => keeps_bind (keeps_assert _) fun _ => keeps_pure

theorem pageRemovePte_room (frame index : Nat) : Keeps (fun vm : Memory α => vm.room = room) (pageRemovePte frame index) := by
  refine keeps_bind (keeps_gets _) fun entry => keeps_onlyIf _ (keeps_bind (pte2page_room _) fun page => ?_)
  refine keeps_bind (keeps_modify fun _ same => same) fun _ => keeps_bind (keeps_gets _) fun vm => ?_
  exact keeps_bind (keeps_onlyIf _ (freePage_room page)) fun _ => keeps_modify fun _ same => same

theorem pageInsert_room (pgdir page la perm : Nat) : Keeps (fun vm : Memory α => vm.room = room) (pageInsert pgdir page la perm) := by
  refine keeps_bind (getPte_room _ _ _) fun found => ?_
  cases found with
  | none => exact keeps_fail _
  | some slot =>
    refine keeps_bind (keeps_modify fun _ same => same) fun _ => keeps_bind (keeps_gets _) fun entry => ?_
    refine keeps_bind (keeps_onlyIf _ (keeps_bind (pte2page_room _) fun old => ?_)) fun _ => keeps_modify fun _ same => same
    split
    · exact keeps_modify fun _ same => same
    · exact pageRemovePte_room _ _

theorem copyEntry_room (target start entry : Nat) : Keeps (fun vm : Memory α => vm.room = room) (copyEntry target start entry) := by
  refine keeps_bind (getPte_room _ _ _) fun found => ?_
  cases found with
  | none => exact keeps_fail _
  | some slot =>
    refine keeps_bind (pte2page_room _) fun page => keeps_bind allocPage_room fun npage => ?_
    cases npage with
    | none => exact keeps_stop
    | some npage =>
      refine keeps_bind (keeps_modify fun _ same => same) fun _ => keeps_bind (keeps_attempt (pageInsert_room _ _ _ _)) fun outcome => ?_
      cases outcome with
      | ok _ => exact keeps_pure
      | error _ => exact keeps_stop

theorem copyLoop_room (target source finish rounds start : Nat) :
    Keeps (fun vm : Memory α => vm.room = room) (copyLoop target source finish rounds start) := by
  induction rounds generalizing start with
  | zero => exact keeps_pure
  | succ rounds ih =>
    refine keeps_bind (getPte_room _ _ _) fun found => ?_
    cases found with
    | none =>
      dsimp only
      split
      · exact ih _
      · exact keeps_pure
    | some slot =>
      refine keeps_bind (keeps_gets _) fun entry => keeps_bind (keeps_onlyIf _ (copyEntry_room _ _ _)) fun _ => ?_
      split
      · exact ih _
      · exact keeps_pure

theorem copyRange_room (target source start finish : Nat) :
    Keeps (fun vm : Memory α => vm.room = room) (copyRange target source start finish) :=
  keeps_bind (keeps_assert _) fun _ => keeps_bind (keeps_assert _) fun _ => copyLoop_room _ _ _ _ _

end

/-! ## The loop over the vmas -/

/-- The pages of some vmas. -/
def PagesOf (list : List Vma) (page : Nat) : Prop := ∃ vma ∈ list, Within vma.vmStart vma.vmEnd page

instance (list : List Vma) : DecidablePred (PagesOf list) := fun page =>
  inferInstanceAs (Decidable (∃ vma ∈ list, Within vma.vmStart vma.vmEnd page))

variable [LawfulManager α] {vma : Vma} {list old : List Vma} {space : AddressSpace α} {roots : Finset Nat}
  {kernel idle : Nat → Prop} {role : Nat → Role}
  {source page : Nat} {present : Finset Nat} {halt : Prop}

theorem pagesOf_cons : PagesOf (vma :: list) page ↔ Within vma.vmStart vma.vmEnd page ∨ PagesOf list page := by
  simp only [PagesOf, List.mem_cons, exists_eq_or_imp]

theorem pagesOf_singleton : PagesOf [vma] page ↔ Within vma.vmStart vma.vmEnd page := by
  simp only [PagesOf, List.mem_singleton, exists_eq_left]

theorem Ordered.range (ordered : Ordered list) (member : vma ∈ list) : Range vma.vmStart vma.vmEnd ∧ userbase ≤ vma.vmStart := by
  obtain ⟨first, last⟩ := ordered.aligned vma member
  obtain ⟨low, high⟩ := ordered.user vma member
  exact ⟨⟨first, last, ordered.nonempty vma member, high⟩, low⟩

/-- A vma has no pages in common with those behind it. -/
theorem Ordered.pages_apart (ordered : Ordered (vma :: list)) (within : Within vma.vmStart vma.vmEnd page) : ¬ PagesOf list page := by
  rintro ⟨other, member, inside⟩
  have before := List.rel_of_pairwise_cons ordered.sorted member
  have order := Nat.div_le_div_right (c := pgsize) before
  unfold Within at within inside
  omega

theorem Ordered.tail (ordered : Ordered (vma :: list)) : Ordered list := @Ordered.suffix list [vma] ordered

theorem Ordered.first (ordered : Ordered (vma :: list)) : placed list vma = vma :: list := by
  apply placed_first
  intro other member
  exact (ordered.nonempty vma List.mem_cons_self).trans_le (List.rel_of_pairwise_cons ordered.sorted member)

/-- The user pages. -/
def userPages : Finset Nat := Finset.range (usertop / pgsize)

theorem own_user (user : page ∈ userPages) : Own page := by
  have bound : usertop / pgsize ≤ 511 * (512 * 512) := by decide
  exact (Finset.mem_range.mp user).trans_le bound

theorem Ordered.pages_user (ordered : Ordered list) (inside : PagesOf list page) : page ∈ userPages := by
  obtain ⟨vma, member, within⟩ := inside
  have last := Nat.div_le_div_right (c := pgsize) (ordered.user vma member).2
  exact Finset.mem_range.mpr (within.2.trans_le last)

/-- What the loop leaves: the vmas in front of those that were there, and their pages copied. -/
structure Dups (space after : AddressSpace α) (source : Nat) (list : List Vma) (roots : Finset Nat) (kernel : Nat → Prop)
    (role : Nat → Role) (present : Finset Nat) : Prop where
  pgdir : after.pgdir = space.pgdir
  mm : after.mm = { space.mm with mmapList := list ++ space.mm.mmapList }
  copied : ∃ role' idle', Counted after.vm roots kernel idle' (fun _ => 0) role' ∧
    Copies space.vm after.vm role role' roots space.pgdir source (PagesOf list)
  room : ∀ n, after.vm.room n = space.vm.room (list.length + n)
  cost : spare space.vm + need after.vm space.pgdir (present.filter fun page => ¬ PagesOf list page) ≤
    spare after.vm + need space.vm space.pgdir present + lacks space.vm.room list.length

/-- Where it fails, some of the vmas are there. -/
structure Stuck (space after : AddressSpace α) (list : List Vma) (roots : Finset Nat) (kernel : Nat → Prop) : Prop where
  pgdir : after.pgdir = space.pgdir
  mm : ∃ front copied, list = front ++ copied ∧ after.mm = { space.mm with mmapList := copied ++ space.mm.mmapList }
  counts : ∃ role' idle', Counted after.vm roots kernel idle' (fun _ => 0) role'

theorem need_touched {vm after : Memory α} {role role' : Nat → Role} {target : Nat} {pages : Nat → Prop}
    (touched : Touched vm after role role' target pages) (tables : Tables vm role) (tables' : Tables after role')
    (is_root : role target = .root) (own : ∀ page ∈ present, Own page) : need after target present ≤ need vm target present := by
  apply need_kept own
  · intro page inside there
    obtain ⟨slot, at_slot⟩ := Option.ne_none_iff_exists'.mp there
    rw [touched.slots target page slot is_root inside at_slot]
    exact Option.some_ne_none _
  · exact fun index inside => touched.child_there tables tables' is_root inside

/-- One more vma and its pages. -/
theorem dupVma_settles (source_member : source ∈ roots) (counted : Counted space.vm roots kernel idle (fun _ => 0) role)
    (member : space.pgdir ∈ roots) (ordered : Ordered (vma :: space.mm.mmapList))
    (cached : ∀ vma, space.mm.mmapCache = some vma → vma ∈ space.mm.mmapList)
    (plain : ∀ page, Within vma.vmStart vma.vmEnd page → look space.vm source page ≠ none → Plain page)
    (own : ∀ page ∈ present, Own page)
    (all : ∀ page, Within vma.vmStart vma.vmEnd page → look space.vm source page ≠ none → page ∈ present)
    (takes_back : Replaces space.vm space.pgdir source (Within vma.vmStart vma.vmEnd) → TakesBack α halt)
    (out : spare space.vm < need space.vm space.pgdir present + (if space.vm.room 0 then 0 else 1) → halt) :
    Settles (dupVma source vma)
      (fun _ after => Dups space after source [vma] roots kernel role present)
      (fun ret after => ret = -eNoMem ∧ Stuck space after [vma] roots kernel) halt space := by
  have range := ordered.range List.mem_cons_self
  refine .bind (.bind (.within ((kmalloc_settles counted fun has empty _ => out ?_).weaken (fun ok vm held => ?_) fun _ _ never => never)))
  · rw [has, if_neg Bool.false_ne_true]
    omega
  obtain ⟨⟨role1, idle1, counted1, grown⟩, -, -⟩ := held
  cases ok with
  | false => exact .pure (.fail ⟨rfl, rfl, ⟨[vma], [], rfl, rfl⟩, role1, idle1, counted1⟩)
  | true =>
    have valid : Valid space.mm := ⟨ordered.tail, cached⟩
    have apart : ∀ other ∈ space.mm.mmapList, vma.vmEnd ≤ other.vmStart := fun other member => List.rel_of_pairwise_cons ordered.sorted member
    have touched := (grown.copies space.pgdir source).touched
    have at_root := counted.rooted space.pgdir member
    have fewer := need_touched touched counted.tables counted1.tables at_root own
    have cost := grown.cost
    refine .pure (.bind (insertVmaStruct_settles valid (ordered.nonempty vma List.mem_cons_self) (fun _ => ?_) ?_))
    swap
    · rintro ⟨other, member, overlap⟩
      exact absurd (.inr (apart other member)) overlap
    rw [ordered.first]
    have looks : ∀ root, root = space.pgdir ∨ root = source → ∀ page, Within vma.vmStart vma.vmEnd page →
        look vm root page = look space.vm root page := by
      intro root either page inside
      have is_root : role root = .root := by
        rcases either with same | same
        · rw [same]
          exact at_root
        · rw [same]
          exact counted.rooted source source_member
      exact touched.elsewhere root page is_root (range.1.own inside) fun _ => id
    have source_looks := looks source (.inr rfl)
    have copied : Settles (copyRange space.pgdir source vma.vmStart vma.vmEnd) _ _ (halt ∧ True) vm :=
      (copyRange_settles counted1 member source_member (fun fails => absurd range fails)
      (fun page inside there => plain page inside (source_looks page inside ▸ there)) own
      (fun page inside there => all page inside (source_looks page inside ▸ there))
      (fun replaces => takes_back (replaces.of_same (fun _ => id) looks)) fun short => out (by omega)).and
      (Ensures.of_keeps (copyRange_room space.pgdir source vma.vmStart vma.vmEnd) rfl)
    refine .bind (.gets (.bind (.within (.attempt ((copied.weaken (fun _ after held => ?_) fun _ after held => ?_).halts And.left)))))
    · obtain ⟨⟨role2, counted2, copies, cost'⟩, room⟩ := held
      refine .pure ⟨rfl, rfl, ⟨role2, idle1, counted2, ?_⟩, fun n => ?_, ?_⟩
      · exact (grown.copies space.pgdir source).trans copies counted counted1 member source_member
          (fun page inside => range.1.own (pagesOf_singleton.mp inside))
          (fun page inside => plain page (pagesOf_singleton.mp inside)) (fun _ never => never.elim)
          fun page => by rw [pagesOf_singleton, false_or]
      · rw [congrFun room n, grown.room, List.length_singleton, Nat.add_comm]
      · have filtered : (present.filter fun page => ¬ PagesOf [vma] page) =
            present.filter fun page => ¬ Within vma.vmStart vma.vmEnd page := Finset.filter_congr fun page _ => by rw [pagesOf_singleton]
        have none_before : lacks space.vm.room 0 = 0 := rfl
        dsimp only
        rw [filtered, List.length_singleton, lacks_succ, none_before]
        omega
    · obtain ⟨⟨role2, counted2, -⟩, -⟩ := held
      exact .fail ⟨rfl, rfl, ⟨[], [vma], rfl, rfl⟩, role2, idle1, counted2⟩

/-- All vmas and their pages. -/
theorem dupVmas_settles (source_member : source ∈ roots) (counted : Counted space.vm roots kernel idle (fun _ => 0) role)
    (member : space.pgdir ∈ roots) (ordered : Ordered (list ++ space.mm.mmapList))
    (cached : ∀ vma, space.mm.mmapCache = some vma → vma ∈ space.mm.mmapList)
    (plain : ∀ page, PagesOf list page → look space.vm source page ≠ none → Plain page) (own : ∀ page ∈ present, Own page)
    (all : ∀ page, PagesOf list page → look space.vm source page ≠ none → page ∈ present)
    (takes_back : Replaces space.vm space.pgdir source (PagesOf list) → TakesBack α halt)
    (out : spare space.vm < need space.vm space.pgdir present + lacks space.vm.room list.length → halt) :
    Settles (dupVmas source list)
      (fun _ after => Dups space after source list roots kernel role present)
      (fun ret after => ret = -eNoMem ∧ Stuck space after list roots kernel) halt space := by
  induction list with
  | nil =>
    have nothing : ∀ page, ¬ PagesOf [] page := by
      rintro page ⟨_, never, -⟩
      cases never
    refine .pure ⟨rfl, rfl, ⟨role, idle, counted, ?_⟩, fun n => by rw [List.length_nil, Nat.zero_add], ?_⟩
    · exact Copies.none fun page inside => absurd inside (nothing page)
    · rw [Finset.filter_true_of_mem fun page _ => nothing page]
      exact Nat.le_add_right _ _
  | cons vma rest ih =>
    have more := lacks_succ space.vm.room rest.length
    rw [List.length_cons, more] at out
    refine .bind ((ih ordered.tail (fun page inside => plain page (pagesOf_cons.mpr (.inr inside)))
      (fun page inside => all page (pagesOf_cons.mpr (.inr inside)))
      (fun replaces => takes_back (replaces.of_same (fun page inside => pagesOf_cons.mpr (.inr inside)) fun _ _ _ _ => rfl))
      fun short => out (by omega)).weaken
      (fun _ mid held => ?_) fun _ mid held => ⟨held.1, ?_⟩)
    swap
    · obtain ⟨front, copied, split, mm⟩ := held.2.mm
      exact ⟨held.2.pgdir, ⟨vma :: front, copied, by rw [split, List.cons_append], mm⟩, held.2.counts⟩
    obtain ⟨role1, idle1, counted1, copies⟩ := held.copied
    have at_root := counted.rooted space.pgdir member
    have cost := held.cost
    have room : mid.vm.room 0 = space.vm.room rest.length := held.room 0
    have looks : ∀ root, root = space.pgdir ∨ root = source → ∀ page, Within vma.vmStart vma.vmEnd page →
        look mid.vm root page = look space.vm root page := by
      intro root either page inside
      have is_root : role root = .root := by
        rcases either with same | same
        · rw [same]
          exact at_root
        · rw [same]
          exact counted.rooted source source_member
      apply copies.touched.elsewhere root page is_root
      · exact own_user (ordered.front.pages_user (pagesOf_cons.mpr (.inl inside)))
      · exact fun _ => ordered.front.pages_apart inside
    have source_looks := looks source (.inr rfl)
    have back : Replaces mid.vm mid.pgdir source (Within vma.vmStart vma.vmEnd) → TakesBack α halt := by
      rw [held.pgdir]
      exact fun replaces => takes_back (replaces.of_same (fun page inside => pagesOf_cons.mpr (.inl inside)) looks)
    have body := @dupVma_settles α _ vma mid roots kernel idle1 role1 source (present.filter fun page => ¬ PagesOf rest page) halt
      source_member counted1 (held.pgdir ▸ member) (by rw [held.mm]; exact ordered)
      (by rw [held.mm]; exact fun vma is_cached => List.mem_append_right rest (cached vma is_cached))
      (fun page inside there => plain page (pagesOf_cons.mpr (.inl inside)) (source_looks page inside ▸ there))
      (fun page inside => own page (Finset.mem_filter.mp inside).1)
      (fun page inside there => Finset.mem_filter.mpr ⟨all page (pagesOf_cons.mpr (.inl inside)) (source_looks page inside ▸ there),
        ordered.front.pages_apart inside⟩) back fun short => out (by rw [held.pgdir, room] at short; omega)
    refine body.weaken (fun _ after last => ?_) fun _ after failed => ⟨failed.1, ?_⟩
    · obtain ⟨role2, idle2, counted2, copies'⟩ := last.copied
      have cost' := last.cost
      rw [held.pgdir] at copies' cost'
      refine ⟨last.pgdir.trans held.pgdir, ?_, ⟨role2, idle2, counted2, ?_⟩, fun n => ?_, ?_⟩
      · rw [last.mm, held.mm]
        rfl
      · refine copies.trans copies' counted counted1 member source_member (fun page inside => own_user (ordered.front.pages_user inside)) plain
          (fun page inside now => ?_) fun page => ?_
        · exact ordered.front.pages_apart (pagesOf_singleton.mp now) inside
        · rw [pagesOf_singleton, pagesOf_cons, or_comm]
      · rw [last.room, held.room, List.length_singleton, List.length_cons]
        exact congrArg _ (by omega)
      · have filtered : ((present.filter fun page => ¬ PagesOf rest page).filter fun page => ¬ PagesOf [vma] page) =
            present.filter fun page => ¬ PagesOf (vma :: rest) page := by
          rw [Finset.filter_filter]
          refine Finset.filter_congr fun page _ => ?_
          rw [pagesOf_singleton, pagesOf_cons, not_or, and_comm]
        rw [filtered, List.length_singleton, lacks_succ, room] at cost'
        rw [List.length_cons, more]
        have none_before : lacks mid.vm.room 0 = 0 := rfl
        omega
    · obtain ⟨front, copied, split, mm⟩ := failed.2.mm
      refine ⟨failed.2.pgdir.trans held.pgdir, ⟨front, copied ++ rest, ?_, ?_⟩, failed.2.counts⟩
      · rw [← List.append_assoc, ← split, List.singleton_append]
      · rw [mm, held.mm, List.append_assoc]

/-! ## Pages of devices -/

omit [LawfulManager α] in
/-- Among some pages, those in the I/O regions are mapped to frames below the memory, if at all. -/
def Devices (vm : Memory α) (pgdir : Nat) (pages : Nat → Prop) : Prop :=
  ∀ page, pages page → ¬ Plain page → ∀ entry, look vm pgdir page = some entry → ppn entry < nbase

omit [LawfulManager α] in
/-- A page in an I/O region that is mapped. -/
def OnDevice (vm : Memory α) (pgdir page : Nat) : Prop := ¬ Plain page ∧ look vm pgdir page ≠ none

section
variable {vm after : Memory α} {target start finish : Nat} {pages fewer : Nat → Prop}

omit [LawfulManager α] in
theorem Devices.of_same (devices : Devices vm source pages) (some : ∀ page, fewer page → pages page)
    (same : ∀ page, fewer page → look after source page = look vm source page) : Devices after source fewer :=
  fun page here special entry found => devices page (some page here) special entry ((same page here).symm.trans found)

omit [LawfulManager α] in
theorem OnDevice.of_same (device : OnDevice vm source page) (same : look after source page = look vm source page) :
    OnDevice after source page := by
  refine ⟨device.1, ?_⟩
  rw [same]
  exact device.2

theorem copyEntry_device {entry : Nat} (tables : Tables vm role) (is_root : role target = .root) (own : Own (pageOf start))
    (low : ppn entry < nbase) : Ensures (copyEntry target start entry) (fun _ _ => False) (fun _ _ => True) vm := by
  refine .bind ((getPte_create tables is_root own fun _ _ => trivial).weaken (fun found after _ => ?_) fun _ _ held => held)
  cases found with
  | none => exact .fail trivial
  | some slot =>
    refine .bind (.bind (.assert (fun _ => .bind (.assert (fun memory => ?_) fun _ => trivial)) fun _ => trivial))
    rw [Bool.and_eq_true, decide_eq_true_eq, decide_eq_true_eq] at memory
    omega

/-- A range with a page of a device is not copied. -/
theorem copyLoop_device (member : target ∈ roots) (source_member : source ∈ roots) (rounds : Nat)
    (counted : Counted vm roots kernel idle (fun _ => 0) role) (range : Range start finish)
    (enough : finish / pgsize ≤ start / pgsize + rounds) (devices : Devices vm source (Within start finish))
    (takes_back : Replaces vm target source (fun page => Within start finish page ∧ Plain page) → TakesBack α True)
    (device : ∃ page, Within start finish page ∧ OnDevice vm source page) :
    Ensures (copyLoop target source finish rounds start) (fun _ _ => False) (fun _ _ => True) vm := by
  induction rounds generalizing vm role start with
  | zero =>
    have inside := range.at_start.1.2
    omega
  | succ rounds ih =>
    have at_source := counted.rooted source source_member
    obtain ⟨inside, same⟩ := range.at_start
    have own_here : Own (pageOf start) := same ▸ range.own inside
    refine .bind ((getPte_lookup counted.tables at_source own_here).weaken (fun found vm held => ?_) fun _ _ held => absurd held id)
    obtain ⟨at_slot, rfl⟩ := held
    rw [same] at at_slot
    obtain ⟨page, within, special⟩ := device
    have further {after : Memory α} {role' : Nat → Role} {next : Nat} (counted' : Counted after roots kernel idle (fun _ => 0) role')
        (rest : Range next finish) (later : start / pgsize < next / pgsize) (there : next / pgsize ≤ page)
        (looks : ∀ root, root = target ∨ root = source → ∀ page, Within next finish page → look after root page = look vm root page) :
        Ensures (copyLoop target source finish rounds next) (fun _ _ => False) (fun _ _ => True) after :=
      ih counted' rest (by omega)
        (devices.of_same (fun other here => (rest.split later.le other).mpr (.inr here)) (looks source (.inr rfl)))
        (fun replaces => takes_back (replaces.of_same (fun other here => here.imp_left fun inside => (rest.split later.le other).mpr (.inr inside))
          fun root either other here => looks root either other here.1))
        ⟨page, ⟨there, within.2⟩, special.of_same (looks source (.inr rfl) page ⟨there, within.2⟩)⟩
    cases found with
    | none =>
      have behind : nextTable start / pgsize ≤ page := by
        by_contra before
        exact special.2 (look_absent (slotOf_skip at_slot.symm ⟨within.1, Nat.lt_of_not_le before⟩))
      have less : nextTable start < finish := by
        by_contra done
        have bound := Nat.div_le_div_right (c := pgsize) (Nat.le_of_not_lt done)
        have last := within.2
        omega
      dsimp only
      rw [if_pos less]
      exact further counted (range.table_aligned.resolve_right (Nat.not_le_of_lt less)) (lt_nextTable start) behind fun _ _ _ _ => rfl
    | some slot =>
      have found : look vm source (start / pgsize) =
          if valid (vm.mem slot.1 slot.2) then some (vm.mem slot.1 slot.2) else none := by
        rw [look, ← at_slot, Option.bind_some]
      have at_root := counted.rooted target member
      have step := next_page start
      have rest (apart : start / pgsize ≠ page) : start + pgsize < finish ∧ (start + pgsize) / pgsize ≤ page := by
        have first := within.1
        have behind : (start + pgsize) / pgsize ≤ page := by omega
        refine ⟨?_, behind⟩
        by_contra done
        have bound := Nat.div_le_div_right (c := pgsize) (Nat.le_of_not_lt done)
        have last := within.2
        omega
      refine .bind (.gets ?_)
      by_cases strange : OnDevice vm source (start / pgsize)
      · -- the copy gets to `pte2page`
        rw [OnDevice, found] at strange
        have maps : valid (vm.mem slot.1 slot.2) = true := by
          by_contra invalid
          rw [if_neg invalid] at strange
          exact strange.2 rfl
        rw [if_pos maps] at found
        have low := devices _ inside strange.1 _ found
        exact .bind (.onlyIf (fun _ => (copyEntry_device counted.tables at_root own_here low).weaken (fun _ _ never => never.elim)
          fun _ _ held => held) fun invalid => absurd maps (Bool.eq_false_iff.mp invalid))
      · have apart : start / pgsize ≠ page := by
          rintro rfl
          exact strange special
        obtain ⟨less, behind⟩ := rest apart
        have next := range.next_aligned.resolve_right (Nat.not_le_of_lt less)
        rw [if_pos less]
        refine .bind (.onlyIf (fun maps => ?_) fun _ => further counted next (by omega) behind fun _ _ _ _ => rfl)
        rw [if_pos maps] at found
        have plain : Plain (start / pgsize) := by
          by_contra special
          exact strange ⟨special, by rw [found]; exact Option.some_ne_none _⟩
        have data := counted.mapped source source_member _ plain _ found
        have back : look vm target (start / pgsize) ≠ none → TakesBack α True := fun there =>
          takes_back ⟨_, ⟨inside, plain⟩, by rw [found]; exact Option.some_ne_none _, there⟩
        refine (copyEntry_settles (same ▸ back) counted member (same ▸ plain) maps data fun _ => trivial).weaken
          (fun _ after held => ?_) fun _ _ _ => trivial
        obtain ⟨role', counted', ⟨frame, copied⟩, -⟩ := held
        refine further counted' next (by omega) behind fun root either other here => ?_
        have is_root : role root = .root := by
          rcases either with rfl | rfl
          · exact at_root
          · exact at_source
        apply copied.touched.elsewhere root other is_root (next.own here)
        rintro - rfl
        have first := here.1
        omega

theorem dupVma_device (source_member : source ∈ roots) (counted : Counted space.vm roots kernel idle (fun _ => 0) role)
    (member : space.pgdir ∈ roots) (ordered : Ordered (vma :: space.mm.mmapList))
    (cached : ∀ vma, space.mm.mmapCache = some vma → vma ∈ space.mm.mmapList)
    (devices : Devices space.vm source (Within vma.vmStart vma.vmEnd))
    (takes_back : Replaces space.vm space.pgdir source (fun page => Within vma.vmStart vma.vmEnd page ∧ Plain page) → TakesBack α True)
    (device : ∃ page, Within vma.vmStart vma.vmEnd page ∧ OnDevice space.vm source page) :
    Ensures (dupVma source vma) (fun _ _ => False) (fun _ _ => True) space := by
  obtain ⟨range, low⟩ := ordered.range List.mem_cons_self
  refine .bind (.bind (.within ((kmalloc_settles counted fun _ _ _ => trivial).weaken (fun ok vm held => ?_) fun _ _ held => held)))
  obtain ⟨⟨role1, idle1, counted1, grown⟩, -, -⟩ := held
  cases ok with
  | false => exact .pure (.fail trivial)
  | true =>
    have valid : Valid space.mm := ⟨ordered.tail, cached⟩
    have looks : ∀ root, root = space.pgdir ∨ root = source → ∀ page, Within vma.vmStart vma.vmEnd page →
        look vm root page = look space.vm root page := by
      intro root either page within
      have is_root : role root = .root := by
        rcases either with same | same
        · rw [same]
          exact counted.rooted space.pgdir member
        · rw [same]
          exact counted.rooted source source_member
      exact (grown.copies space.pgdir source).touched.elsewhere root page is_root (range.own within) fun _ => id
    have source_looks := looks source (.inr rfl)
    obtain ⟨page, within, special⟩ := device
    have stopped := copyLoop_device member source_member (vma.vmEnd / pgsize - vma.vmStart / pgsize) counted1 range (by omega)
      (devices.of_same (fun _ => id) source_looks)
      (fun replaces => takes_back (replaces.of_same (fun _ => id) fun root either page here => looks root either page here.1))
      ⟨page, within, special.of_same (source_looks page within)⟩
    refine .pure (.bind (insertVmaStruct_settles valid (ordered.nonempty vma List.mem_cons_self) (fun _ => ?_) fun _ => trivial))
    refine .bind (.gets (.bind (.within (.attempt (.bind (.assert (fun _ => .bind (.assert (fun _ => ?_) fun _ => trivial)) fun _ => trivial))))))
    exact stopped.weaken (fun _ _ never => never.elim) fun _ _ _ => .fail trivial

/-- Vmas with a page of a device are not copied. -/
theorem dupVmas_device (source_member : source ∈ roots) (counted : Counted space.vm roots kernel idle (fun _ => 0) role)
    (member : space.pgdir ∈ roots) (ordered : Ordered (list ++ space.mm.mmapList))
    (cached : ∀ vma, space.mm.mmapCache = some vma → vma ∈ space.mm.mmapList)
    (devices : Devices space.vm source (PagesOf list))
    (takes_back : Replaces space.vm space.pgdir source (fun page => PagesOf list page ∧ Plain page) → TakesBack α True)
    (device : ∃ page, PagesOf list page ∧ OnDevice space.vm source page) :
    Ensures (dupVmas source list) (fun _ _ => False) (fun _ _ => True) space := by
  induction list with
  | nil =>
    obtain ⟨page, ⟨_, never, _⟩, _⟩ := device
    cases never
  | cons vma rest ih =>
    by_cases early : ∃ page, PagesOf rest page ∧ OnDevice space.vm source page
    · exact .bind ((ih ordered.tail (devices.of_same (fun page inside => pagesOf_cons.mpr (.inr inside)) fun _ _ => rfl)
        (fun replaces => takes_back (replaces.of_same (fun page here => here.imp_left fun inside => pagesOf_cons.mpr (.inr inside))
          fun _ _ _ _ => rfl)) early).weaken
        (fun _ _ never => never.elim) fun _ _ _ => trivial)
    have plain : ∀ page, PagesOf rest page → look space.vm source page ≠ none → Plain page := fun page inside mapped => by
      by_contra special
      exact early ⟨page, inside, special, mapped⟩
    have all : ∀ page, PagesOf rest page → look space.vm source page ≠ none → page ∈ userPages := fun page inside _ =>
      ordered.tail.front.pages_user inside
    have back : Replaces space.vm space.pgdir source (PagesOf rest) → TakesBack α True := by
      rintro ⟨page, inside, there, mapped⟩
      exact takes_back ⟨page, ⟨pagesOf_cons.mpr (.inr inside), plain page inside there⟩, there, mapped⟩
    refine .bind ((dupVmas_settles source_member counted member ordered.tail cached plain (fun page => own_user) all back fun _ => trivial).weaken
      (fun _ mid held => ?_) fun _ _ _ => trivial)
    obtain ⟨role1, idle1, counted1, copies⟩ := held.copied
    obtain ⟨page, inside, special⟩ := device
    have within := (pagesOf_cons.mp inside).resolve_right fun here => early ⟨page, here, special⟩
    have looks : ∀ root, root = space.pgdir ∨ root = source → ∀ page, Within vma.vmStart vma.vmEnd page →
        look mid.vm root page = look space.vm root page := by
      intro root either page within
      have is_root : role root = .root := by
        rcases either with same | same
        · rw [same]
          exact counted.rooted space.pgdir member
        · rw [same]
          exact counted.rooted source source_member
      apply copies.touched.elsewhere root page is_root
      · exact own_user (ordered.front.pages_user (pagesOf_cons.mpr (.inl within)))
      · exact fun _ => ordered.front.pages_apart within
    have source_looks := looks source (.inr rfl)
    apply dupVma_device source_member counted1 (held.pgdir ▸ member)
    · rw [held.mm]
      exact ordered
    · rw [held.mm]
      exact fun vma is_cached => List.mem_append_right rest (cached vma is_cached)
    · exact devices.of_same (fun page within => pagesOf_cons.mpr (.inl within)) source_looks
    · rw [held.pgdir]
      exact fun replaces => takes_back (replaces.of_same (fun page here => here.imp_left fun within => pagesOf_cons.mpr (.inl within))
        fun root either page here => looks root either page here.1)
    · exact ⟨page, within, special.of_same (source_looks page within)⟩

end

/-! ## The child -/

omit [LawfulManager α] in
/-- An address space with its vmas: pages of memory are mapped in vmas only, and those of devices below the memory. -/
structure SetUp (vm : Memory α) (pgdir : Nat) (mm : Mm) : Prop where
  ordered : Ordered mm.mmapList
  covered : ∀ page ∈ userPages, Plain page → look vm pgdir page ≠ none → PagesOf mm.mmapList page
  devices : Devices vm pgdir (· ∈ userPages)

omit [LawfulManager α] in
/-- A space that was set up for a child: it has no vmas and no pages but those of the devices. -/
structure Fresh (space : AddressSpace α) (source : Nat) : Prop where
  vmas : space.mm = ⟨[], none⟩
  blank : ∀ page ∈ userPages, Plain page → look space.vm space.pgdir page = none
  regions : ∀ page ∈ userPages, ¬ Plain page → look space.vm space.pgdir page = look space.vm source page

omit [LawfulManager α] in
/-- The child has the vmas of its parent, and for each of its pages of memory a new frame that nothing else is
mapped to, with the same permissions and the same content; the parent is as it was. -/
structure Forked [ManagedPages α] (roots : Finset Nat) (space after : AddressSpace α) (source : Nat) (mm : Mm) : Prop where
  vmas : after.mm.mmapList = mm.mmapList
  absent : ∀ page ∈ userPages, look space.vm source page = none → look after.vm after.pgdir page = none
  present : ∀ page ∈ userPages, Plain page → ∀ entry, look space.vm source page = some entry →
    ∃ copy, look after.vm after.pgdir page = some copy ∧ pteUser copy = pteUser entry ∧
      after.vm.mem (ppn copy) = space.vm.mem (ppn entry) ∧ space.vm.free (ppn copy) = true ∧
      ∀ root ∈ roots, ∀ other, Plain other → ∀ found, look after.vm root other = some found → ppn found = ppn copy →
        root = after.pgdir ∧ other = page
  regions : ∀ page ∈ userPages, ¬ Plain page → look after.vm after.pgdir page = look space.vm source page
  parent : ∀ page ∈ userPages, look after.vm source page = look space.vm source page ∧
    ∀ entry, look space.vm source page = some entry → after.vm.mem (ppn entry) = space.vm.mem (ppn entry)

theorem pteUser_mapping {entry : Nat} (frame : Nat) (is_valid : valid entry = true) : pteUser (mapping frame (pteUser entry)) = pteUser entry := by
  have small : pteUser entry < 1024 := (Nat.mod_lt entry (by decide)).trans (by decide)
  have low := @pteCreate_mod frame _ (perm_small small)
  have odd : ∀ m < 32, m % 2 = 1 → (pteV ||| (pteV ||| m)) % 32 = m := by decide
  have is_odd : pteUser entry % 2 = 1 := by
    rw [valid, decide_eq_true_eq] at is_valid
    rw [pteUser]
    omega
  have step : pteUser (mapping frame (pteUser entry)) = mapping frame (pteUser entry) % 1024 % 32 := by
    rw [pteUser]
    omega
  rw [step, mapping, low]
  exact odd _ (Nat.mod_lt entry (by decide)) is_odd

omit [LawfulManager α] in
theorem valid_of_look {vm : Memory α} {pgdir entry : Nat} (found : look vm pgdir page = some entry) : valid entry = true := by
  obtain ⟨slot, -, kept⟩ := Option.bind_eq_some_iff.mp found
  split at kept
  · cases kept
    assumption
  · cases kept

/-- Where `dup_mmap` into a fresh address space returns, the space is copied. -/
theorem dupMmap_forked {space after : AddressSpace α} {mm : Mm} (lawful : Paging.Lawful space.vm roots kernel)
    (member : space.pgdir ∈ roots) (source_member : source ∈ roots) (differ : source ≠ space.pgdir)
    (parent : SetUp space.vm source mm) (fresh : Fresh space source) (ran : Returns (dupMmap source mm) space () after) :
    Forked roots space after source mm := by
  obtain ⟨role, counted⟩ := lawful.counts
  have ordered : Ordered (mm.mmapList ++ space.mm.mmapList) := by
    rw [fresh.vmas, List.append_nil]
    exact parent.ordered
  have cached : ∀ vma, space.mm.mmapCache = some vma → vma ∈ space.mm.mmapList := by
    rw [fresh.vmas]
    nofun
  have plain : ∀ page, PagesOf mm.mmapList page → look space.vm source page ≠ none → Plain page := by
    intro page inside mapped
    by_contra special
    have none_replaced : Replaces space.vm space.pgdir source (fun page => PagesOf mm.mmapList page ∧ Plain page) → TakesBack α True := by
      rintro ⟨page, ⟨inside, plain⟩, -, mapped⟩
      exact absurd (fresh.blank page (parent.ordered.pages_user inside) plain) mapped
    exact (dupVmas_device source_member counted member ordered cached
      (fun page inside => parent.devices page (parent.ordered.pages_user inside)) none_replaced ⟨page, inside, special, mapped⟩).returns _ _ ran
  have none_replaced : Replaces space.vm space.pgdir source (PagesOf mm.mmapList) → TakesBack α True := by
    rintro ⟨page, inside, there, mapped⟩
    exact absurd (fresh.blank page (parent.ordered.pages_user inside) (plain page inside there)) mapped
  have dups := (dupVmas_settles source_member counted member ordered cached plain (fun page => own_user)
    (fun page inside _ => parent.ordered.pages_user inside) none_replaced fun _ => trivial).returns _ _ ran
  obtain ⟨role', idle', counted', copies⟩ := dups.copied
  have duplicated := copies.duplicated differ fun page inside => by
    have user := parent.ordered.pages_user inside
    by_cases is_plain : Plain page
    · exact fresh.blank page user is_plain
    · rw [fresh.regions page user is_plain]
      by_contra mapped
      exact is_plain (plain page inside mapped)
  have at_root := counted.rooted space.pgdir member
  have outside : ∀ page ∈ userPages, ¬ PagesOf mm.mmapList page → look after.vm space.pgdir page = look space.vm space.pgdir page :=
    fun page user outside => copies.touched.elsewhere space.pgdir page at_root (own_user user) fun _ => outside
  refine ⟨?_, ?_, ?_, ?_, ?_⟩
  · rw [dups.mm, fresh.vmas, List.append_nil]
  · intro page user none
    rw [dups.pgdir]
    by_cases inside : PagesOf mm.mmapList page
    · exact duplicated.absent page inside none
    · rw [outside page user inside]
      by_cases is_plain : Plain page
      · exact fresh.blank page user is_plain
      · rw [fresh.regions page user is_plain, none]
  · intro page user is_plain entry found
    have inside := parent.covered page user is_plain (by rw [found]; exact Option.some_ne_none _)
    obtain ⟨frame, free, mapped, alone, content⟩ := duplicated.present page inside entry found
    have small : pteUser entry < 1024 := (Nat.mod_lt entry (by decide)).trans (by decide)
    rw [dups.pgdir]
    refine ⟨_, mapped, pteUser_mapping frame (valid_of_look found), ?_⟩
    rw [ppn_mapping small]
    refine ⟨content, free, fun root root_member other other_plain entry' found' same => ?_⟩
    have maps := mem_mappers.mpr ⟨root_member, other_plain, entry', found', same⟩
    rw [alone, Finset.mem_singleton] at maps
    exact Prod.mk.inj maps
  · intro page user special
    rw [dups.pgdir]
    by_cases inside : PagesOf mm.mmapList page
    · have none : look space.vm source page = none := by
        by_contra mapped
        exact special (plain page inside mapped)
      rw [none]
      exact duplicated.absent page inside none
    · rw [outside page user inside, fresh.regions page user special]
  · intro page user
    refine ⟨copies.touched.elsewhere source page (counted.rooted source source_member) (own_user user) fun same => absurd same differ, ?_⟩
    intro entry found
    apply (duplicated.kept _ _).2
    by_cases is_plain : Plain page
    · exact (counted.mapped source source_member page is_plain entry found).1
    · have low := parent.devices page user is_plain entry found
      by_contra used
      have inside := counted.tables.inside _ used
      omega

end Ucore.MmMap
