import Ucore.MmMap
import Ucore.PagingProofs
import Ucore.UserMemProofs

/-! The list of vmas over whole histories. It stays sorted and its vmas apart; a
request is answered as it should where its range does not wrap around and does
not run into a vma from below. The check of `mm_map` looks at the vma that holds
the start of the range only, and leaves the others to the assertions behind it. -/
namespace Ucore.MmMap
open Call Paging UserMem UserMemProofs

/-- A list of vmas as its assertions want it: ranges of user pages, in their order. -/
structure Ordered (list : List Vma) : Prop where
  nonempty : ∀ vma ∈ list, vma.vmStart < vma.vmEnd
  aligned : ∀ vma ∈ list, vma.vmStart % pgsize = 0 ∧ vma.vmEnd % pgsize = 0
  user : ∀ vma ∈ list, userbase ≤ vma.vmStart ∧ vma.vmEnd ≤ usertop
  sorted : list.Pairwise fun prev next => prev.vmEnd ≤ next.vmStart

/-- With the cache on one of them. -/
structure Valid (mm : Mm) : Prop extends Ordered mm.mmapList where
  cached : ∀ vma, mm.mmapCache = some vma → vma ∈ mm.mmapList

variable {α : Type} {mm : Mm} {vma other : Vma} {space : AddressSpace α} {list : List Vma}

theorem Valid.wellformed (valid : Valid mm) : Wellformed mm :=
  ⟨valid.nonempty, valid.aligned, valid.sorted.imp fun before => .inl before, valid.cached⟩

theorem Valid.looked {after : Mm} (valid : Valid mm) (looked : Looked mm after) : Valid after := by
  refine ⟨?_, looked.wellformed.cached⟩
  rw [looked.mmapList]
  exact valid.toOrdered

theorem Ordered.suffix {front : List Vma} (ordered : Ordered (front ++ list)) : Ordered list := by
  have inside : ∀ vma ∈ list, vma ∈ front ++ list := fun vma member => List.mem_append_right front member
  exact ⟨fun vma member => ordered.nonempty vma (inside vma member), fun vma member => ordered.aligned vma (inside vma member),
    fun vma member => ordered.user vma (inside vma member), (List.pairwise_append.mp ordered.sorted).2.1⟩

theorem Ordered.front {rest : List Vma} (ordered : Ordered (list ++ rest)) : Ordered list := by
  have inside : ∀ vma ∈ list, vma ∈ list ++ rest := fun vma member => List.mem_append_left rest member
  exact ⟨fun vma member => ordered.nonempty vma (inside vma member), fun vma member => ordered.aligned vma (inside vma member),
    fun vma member => ordered.user vma (inside vma member), (List.pairwise_append.mp ordered.sorted).1⟩

/-! ## The place of a vma -/

theorem start_before (member : other ∈ list.takeWhile (goesBefore vma)) : other.vmStart ≤ vma.vmStart := by
  have goes := List.mem_takeWhile_imp member
  rwa [goesBefore, decide_eq_true_eq] at goes

/-- Behind its place the vmas of a sorted list begin later. -/
theorem start_behind (nonempty : ∀ vma ∈ list, vma.vmStart < vma.vmEnd)
    (sorted : list.Pairwise fun prev next => prev.vmEnd ≤ next.vmStart)
    (member : other ∈ list.dropWhile (goesBefore vma)) : vma.vmStart < other.vmStart := by
  have stops := List.head?_dropWhile_not (goesBefore vma) list
  have sorted' := sorted.sublist (List.dropWhile_sublist (goesBefore vma))
  cases behind : list.dropWhile (goesBefore vma) with
  | nil =>
    rw [behind] at member
    cases member
  | cons first rest =>
    rw [behind] at stops member sorted'
    have later : vma.vmStart < first.vmStart := by simpa [goesBefore] using stops
    rcases List.mem_cons.mp member with rfl | member
    · exact later
    · have in_list : first ∈ list := (List.dropWhile_sublist (goesBefore vma)).mem (behind ▸ List.mem_cons_self)
      have first_range := nonempty first in_list
      have apart := List.rel_of_pairwise_cons sorted' member
      omega

/-- With the vmas next to its place apart from it, a vma is apart from all. -/
theorem apart_of_neighbours (valid : Valid mm)
    (before : ∀ prev ∈ (mm.mmapList.takeWhile (goesBefore vma)).getLast?, prev.vmEnd ≤ vma.vmStart)
    (behind : ∀ next ∈ (mm.mmapList.dropWhile (goesBefore vma)).head?, vma.vmEnd ≤ next.vmStart)
    (member : other ∈ mm.mmapList) : Apart other vma := by
  rw [← List.takeWhile_append_dropWhile (p := goesBefore vma) (l := mm.mmapList), List.mem_append] at member
  rcases member with member | member
  · left
    have sorted := valid.sorted.sublist (List.takeWhile_sublist (goesBefore vma))
    obtain ⟨rest, last, split⟩ := List.eq_nil_or_concat _ |>.resolve_left (List.ne_nil_of_mem member)
    rw [split] at before sorted member
    rw [List.concat_eq_append, List.getLast?_concat] at before
    have ends := before last rfl
    rw [List.concat_eq_append] at sorted member
    rcases List.mem_append.mp member with earlier | same
    · have apart := (List.pairwise_append.mp sorted).2.2 other earlier last List.mem_cons_self
      have in_list : last ∈ mm.mmapList := (List.takeWhile_sublist (goesBefore vma)).mem (by rw [split]; simp)
      have last_range := valid.nonempty last in_list
      omega
    · rwa [List.mem_singleton.mp same]
  · right
    have sorted := valid.sorted.sublist (List.dropWhile_sublist (goesBefore vma))
    cases rest : mm.mmapList.dropWhile (goesBefore vma) with
    | nil =>
      rw [rest] at member
      cases member
    | cons first more =>
      rw [rest] at behind sorted member
      have begins := behind first rfl
      rcases List.mem_cons.mp member with rfl | member
      · exact begins
      · have apart := List.rel_of_pairwise_cons sorted member
        have in_list : first ∈ mm.mmapList := (List.dropWhile_sublist (goesBefore vma)).mem (rest ▸ List.mem_cons_self)
        have first_range := valid.nonempty first in_list
        omega

/-- The list with a vma at its place. -/
def placed (list : List Vma) (vma : Vma) : List Vma :=
  list.takeWhile (goesBefore vma) ++ vma :: list.dropWhile (goesBefore vma)

theorem placed_perm (list : List Vma) (vma : Vma) : (placed list vma).Perm (vma :: list) := by
  have whole : list.takeWhile (goesBefore vma) ++ list.dropWhile (goesBefore vma) = list := List.takeWhile_append_dropWhile
  exact List.perm_middle.trans (List.Perm.of_eq (by rw [whole]))

theorem placed_sorted (valid : Valid mm) (range : vma.vmStart < vma.vmEnd) (apart : ∀ other ∈ mm.mmapList, Apart other vma) :
    (placed mm.mmapList vma).Pairwise fun prev next => prev.vmEnd ≤ next.vmStart := by
  have whole : mm.mmapList.takeWhile (goesBefore vma) ++ mm.mmapList.dropWhile (goesBefore vma) = mm.mmapList :=
    List.takeWhile_append_dropWhile
  have sorted := valid.sorted
  rw [← whole, List.pairwise_append] at sorted
  obtain ⟨before, behind, across⟩ := sorted
  refine List.pairwise_append.mpr ⟨before, List.pairwise_cons.mpr ⟨fun next member => ?_, behind⟩, fun prev member next others => ?_⟩
  · have later := start_behind valid.nonempty valid.sorted member
    have between := apart next ((List.dropWhile_sublist (goesBefore vma)).mem member)
    have next_range := valid.nonempty next ((List.dropWhile_sublist (goesBefore vma)).mem member)
    unfold Apart at between
    omega
  · rcases List.mem_cons.mp others with rfl | others
    · have earlier := start_before member
      have between := apart prev ((List.takeWhile_sublist (goesBefore next)).mem member)
      unfold Apart at between
      omega
    · exact across prev member next others

theorem placed_valid (valid : Valid mm) (range : vma.vmStart < vma.vmEnd) (aligned : vma.vmStart % pgsize = 0 ∧ vma.vmEnd % pgsize = 0)
    (user : userbase ≤ vma.vmStart ∧ vma.vmEnd ≤ usertop) (apart : ∀ other ∈ mm.mmapList, Apart other vma) :
    Valid { mm with mmapList := placed mm.mmapList vma } := by
  have members : ∀ {other}, other ∈ placed mm.mmapList vma ↔ other = vma ∨ other ∈ mm.mmapList :=
    (placed_perm mm.mmapList vma).mem_iff.trans List.mem_cons
  refine ⟨⟨fun other member => ?_, fun other member => ?_, fun other member => ?_, placed_sorted valid range apart⟩,
    fun other cached => members.mpr (.inr (valid.cached other cached))⟩
  all_goals rcases members.mp member with rfl | member
  · exact range
  · exact valid.nonempty other member
  · exact aligned
  · exact valid.aligned other member
  · exact user
  · exact valid.user other member

section
variable {prev next : Vma} {post : Unit → AddressSpace α → Prop} {bad : Int → AddressSpace α → Prop} {halt : Prop}

theorem checkVmaOverlap_settles (first : prev.vmStart < prev.vmEnd) (second : next.vmStart < next.vmEnd)
    (held : prev.vmEnd ≤ next.vmStart → post () space) (fails : next.vmStart < prev.vmEnd → halt) :
    Settles (checkVmaOverlap prev next) post bad halt space := by
  refine .bind (.assert (fun _ => .bind (.assert (fun apart => .assert (fun _ => held ?_) fun failed => ?_) fun failed => fails ?_))
    fun failed => ?_)
  · simpa using apart
  · simp [second] at failed
  · simpa using failed
  · simp [first] at failed

theorem checkPrev_settles {before : List Vma} (range : vma.vmStart < vma.vmEnd)
    (prevs : ∀ prev ∈ before.getLast?, prev.vmStart < prev.vmEnd)
    (held : (∀ prev ∈ before.getLast?, prev.vmEnd ≤ vma.vmStart) → post () space)
    (into : ∀ prev ∈ before.getLast?, vma.vmStart < prev.vmEnd → halt) :
    Settles (checkPrev before vma) post bad halt space := by
  unfold checkPrev
  cases last : before.getLast? with
  | none => exact .pure (held (by rw [last]; nofun))
  | some prev =>
    apply checkVmaOverlap_settles (prevs prev last) range (fun before => held ?_) (into prev last)
    rw [last]
    rintro _ ⟨⟩
    exact before

theorem checkNext_settles {behind : List Vma} (range : vma.vmStart < vma.vmEnd)
    (nexts : ∀ next ∈ behind.head?, next.vmStart < next.vmEnd)
    (held : (∀ next ∈ behind.head?, vma.vmEnd ≤ next.vmStart) → post () space)
    (into : ∀ next ∈ behind.head?, next.vmStart < vma.vmEnd → halt) :
    Settles (checkNext vma behind) post bad halt space := by
  unfold checkNext
  cases first : behind.head? with
  | none => exact .pure (held (by rw [first]; nofun))
  | some next =>
    apply checkVmaOverlap_settles range (nexts next first) (fun behind => held ?_) (into next first)
    rw [first]
    rintro _ ⟨⟩
    exact behind

/-- The assertions before and behind the place of a vma fail exactly where it runs into another. -/
theorem insertVmaStruct_settles (valid : Valid space.mm) (range : vma.vmStart < vma.vmEnd)
    (held : (∀ other ∈ space.mm.mmapList, Apart other vma) →
      post () { space with mm := { space.mm with mmapList := placed space.mm.mmapList vma } })
    (fails : (∃ other ∈ space.mm.mmapList, ¬ Apart other vma) → halt) :
    Settles (insertVmaStruct vma) post bad halt space := by
  have in_before : ∀ prev ∈ (space.mm.mmapList.takeWhile (goesBefore vma)).getLast?,
      prev ∈ space.mm.mmapList ∧ prev.vmStart ≤ vma.vmStart := fun prev last => by
    have member := List.mem_of_getLast? last
    exact ⟨(List.takeWhile_sublist (goesBefore vma)).mem member, start_before member⟩
  have in_behind : ∀ next ∈ (space.mm.mmapList.dropWhile (goesBefore vma)).head?,
      next ∈ space.mm.mmapList ∧ vma.vmStart < next.vmStart := fun next first => by
    have member := List.mem_of_head? first
    exact ⟨(List.dropWhile_sublist (goesBefore vma)).mem member, start_behind valid.nonempty valid.sorted member⟩
  refine .bind (.assert (fun _ => .bind (.gets (.bind ?_))) fun failed => ?_)
  swap
  · rw [decide_eq_false_iff_not] at failed
    exact absurd range failed
  apply checkPrev_settles range (fun prev last => valid.nonempty prev (in_before prev last).1)
  · intro before
    apply Settles.bind
    apply checkNext_settles range (fun next first => valid.nonempty next (in_behind next first).1)
    · intro behind
      exact .modify (held fun other => apart_of_neighbours valid before behind)
    · intro next first overlap
      refine fails ⟨next, (in_behind next first).1, fun apart => ?_⟩
      have later := (in_behind next first).2
      have next_range := valid.nonempty next (in_behind next first).1
      unfold Apart at apart
      omega
  · intro prev last overlap
    refine fails ⟨prev, (in_before prev last).1, fun apart => ?_⟩
    have earlier := (in_before prev last).2
    unfold Apart at apart
    omega

end

/-- In front of all others a vma stays there. -/
theorem placed_first (first : ∀ other ∈ list, vma.vmStart < other.vmStart) : placed list vma = vma :: list := by
  cases list with
  | nil => rfl
  | cons other rest =>
    have later : goesBefore vma other = false := by
      rw [goesBefore, decide_eq_false_iff_not]
      exact Nat.not_le_of_lt (first other List.mem_cons_self)
    rw [placed, List.takeWhile_cons, List.dropWhile_cons, later]
    rfl

/-! ## The heap -/

section
variable [LawfulManager α] {vm after : Memory α} {role role' : Nat → Role} {roots : Finset Nat} {kernel idle : Nat → Prop}
  {bad : Int → Memory α → Prop} {halt : Prop}

/-- Objects that are not in the heap's pages yet. -/
def lacks (room : Nat → Bool) (n : Nat) : Nat := ((List.range n).filter fun i => !room i).length

theorem lacks_succ (room : Nat → Bool) (n : Nat) : lacks room (n + 1) = lacks room n + if room n then 0 else 1 := by
  rw [lacks, List.range_succ, List.filter_append, List.length_append, lacks]
  cases has : room n <;> simp [has]

/-- What an object of the heap leaves of the page tables: it may take a frame. -/
structure Grown (vm after : Memory α) (role role' : Nat → Role) (roots : Finset Nat) : Prop where
  copies : ∀ target source, Copies vm after role role' roots target source fun _ => False
  kept : ∀ frame, role frame = .other → role' frame = .other ∧ after.mem frame = vm.mem frame
  room : ∀ n, after.room n = vm.room (n + 1)
  cost : spare vm ≤ spare after + if vm.room 0 then 0 else 1

theorem Grown.of_touched (touched : ∀ target, Touched vm after role role' target fun _ => False)
    (kept : ∀ frame, role frame = .other → role' frame = .other ∧ after.mem frame = vm.mem frame)
    (room : ∀ n, after.room n = vm.room (n + 1)) (cost : spare vm ≤ spare after + if vm.room 0 then 0 else 1) :
    Grown vm after role role' roots :=
  ⟨fun target _ => ⟨touched target, fun _ _ => ⟨nofun, nofun, kept⟩⟩, kept, room, cost⟩

theorem kmalloc_settles (counted : Counted vm roots kernel idle (fun _ => 0) role)
    (out : vm.room 0 = false → spare vm = 0 → vm.swapInitOk = true → halt) :
    Settles kmalloc (fun ok after => (∃ role' idle', Counted after roots kernel idle' (fun _ => 0) role' ∧
      Grown vm after role role' roots) ∧ (ok = false ↔ vm.room 0 = false ∧ spare vm = 0) ∧ (ok = false → vm.swapInitOk = false)) bad halt vm := by
  let shifted : Memory α := { vm with room := fun n => vm.room (n + 1) }
  have same : Counted shifted roots kernel idle (fun _ => 0) role :=
    ⟨counted.tables.congr rfl rfl, counted.rooted, counted.only, counted.reserved, counted.mapped, counted.counted, counted.unmapped⟩
  have stays : Grown vm shifted role role roots :=
    .of_touched (fun _ => ⟨fun _ _ => rfl, fun _ _ _ _ _ found => found, fun _ _ _ _ _ => rfl, fun _ _ => rfl, rfl, rfl⟩)
      (fun _ other => ⟨other, rfl⟩) (fun _ => rfl) (Nat.le_add_right _ _)
  refine .bind (.gets (.bind (.modify ?_)))
  cases has : vm.room 0 with
  | true =>
    rw [if_pos rfl]
    exact .pure ⟨⟨role, idle, same, stays⟩, iff_of_false Bool.noConfusion fun both => Bool.noConfusion both.1, Bool.noConfusion⟩
  | false =>
    rw [if_neg Bool.false_ne_true]
    refine .bind (allocPage_settles same.tables.ordered (fun frame pmm took => .pure ⟨⟨Function.update role frame .other,
        fun other => idle other ∨ other = frame, ?_, ?_⟩, iff_of_false Bool.noConfusion ?_, Bool.noConfusion⟩)
      (fun empty off => .pure ⟨⟨role, idle, same, stays⟩, iff_of_true rfl ⟨rfl, empty⟩, fun _ => off⟩)
      fun empty on => out has empty on)
    all_goals have taken : Taken vm (takePage shifted pmm) frame := ⟨took, fun _ _ => rfl, rfl, rfl, rfl⟩
    · exact Taken.counted ⟨took, fun _ _ => rfl, rfl, rfl, rfl⟩ same
    · refine .of_touched (fun target => taken.touched target _ counted.tables) (fun other is_other => ⟨?_, rfl⟩) (fun _ => rfl) ?_
      · rw [Function.update_of_ne ?_, is_other]
        rintro rfl
        rw [taken.was_free counted.tables] at is_other
        cases is_other
      · rw [has, if_neg Bool.false_ne_true]
        exact taken.spare.ge
    · rintro ⟨-, empty⟩
      have one_less := taken.spare
      omega

end

/-! ## Requests -/

/-- The pages that a request is about. -/
def low (addr : Nat) : Nat := addr / pgsize * pgsize
def high (addr len : Nat) : Nat := (addr + len + (pgsize - 1)) / pgsize * pgsize

/-- A range and a vma have an address in common. -/
def RunsInto (start finish : Nat) (vma : Vma) : Prop := vma.vmStart < finish ∧ start < vma.vmEnd

/-- The range is not one of user addresses, or is taken. -/
def Refused (mm : Mm) (addr len : Nat) : Prop :=
  userAccess (low addr) (high addr len) = false ∨ ∃ vma ∈ mm.mmapList, RunsInto (low addr) (high addr len) vma

theorem userAccess_iff {start finish : Nat} : userAccess start finish = true ↔ userbase ≤ start ∧ start < finish ∧ finish ≤ usertop := by
  simp [userAccess, and_assoc]

theorem rounddown_low (addr : Nat) : rounddown addr pgsize = low addr := by
  have split := Nat.div_add_mod addr pgsize
  rw [rounddown, low, Nat.mul_comm]
  omega

section
variable {addr len : Nat}

/-- The end as the machine computes it. -/
def machineEnd (addr len : Nat) : Nat := roundup (word (addr + len)) pgsize

/-- An end that does not wrap around is the end of the range or none. -/
theorem machineEnd_eq (fits : addr + len < 2 ^ 64) :
    machineEnd addr len = high addr len ∨ machineEnd addr len = 0 ∧ 2 ^ 64 ≤ high addr len := by
  simp only [machineEnd, roundup, rounddown, word, high, pgsize]
  omega

theorem wraps_high (wraps : 2 ^ 64 ≤ addr + len) : userAccess (low addr) (high addr len) = false := by
  by_contra accepted
  have last := (userAccess_iff.mp (Bool.not_eq_false _ ▸ accepted)).2.2
  simp only [high, usertop, pgsize] at last
  omega

/-- What the machine refuses as no user range is none. -/
theorem refused_of_machine (refused : userAccess (low addr) (machineEnd addr len) = false) :
    userAccess (low addr) (high addr len) = false := by
  by_cases fits : addr + len < 2 ^ 64
  · rcases machineEnd_eq fits with same | ⟨-, large⟩
    · rw [← same]
      exact refused
    · by_contra accepted
      have last := (userAccess_iff.mp (Bool.not_eq_false _ ▸ accepted)).2.2
      simp only [usertop] at last
      omega
  · exact wraps_high (by omega)

/-- Where the machine goes on, a request is to be refused if it wraps around or its range is taken. -/
theorem refused_iff (accepted : userAccess (low addr) (machineEnd addr len) = true) :
    ¬ Refused mm addr len ↔ addr + len < 2 ^ 64 ∧ ∀ vma ∈ mm.mmapList, ¬ RunsInto (low addr) (high addr len) vma := by
  have order := userAccess_iff.mp accepted
  unfold Refused
  push Not
  refine and_congr_left fun _ => ⟨fun user => ?_, fun fits => ?_⟩
  · by_contra wraps
    rw [wraps_high (by omega)] at user
    exact user rfl
  · rcases machineEnd_eq fits with same | ⟨zero, -⟩
    · rw [← same, accepted]
      exact Bool.noConfusion
    · omega

theorem machineEnd_high (accepted : userAccess (low addr) (machineEnd addr len) = true) (fits : addr + len < 2 ^ 64) :
    machineEnd addr len = high addr len := by
  have order := userAccess_iff.mp accepted
  rcases machineEnd_eq fits with same | ⟨zero, -⟩
  · exact same
  · omega

end

variable [LawfulManager α]

/-- How a request is to be answered. -/
structure Answered (space after : AddressSpace α) (addr len : Nat) (vmFlags : VmFlags) (outcome : Except Int Vma) : Prop where
  invalid : outcome = .error (-eInval) ↔ Refused space.mm addr len
  inserted : ∀ vma, outcome = .ok vma → vma = ⟨low addr, high addr len, vmFlags⟩ ∧ after.mm.mmapList.Perm (vma :: space.mm.mmapList)
  unchanged : ∀ ret, outcome = .error ret → after.mm.mmapList = space.mm.mmapList ∧
    (ret ≠ -eInval → ret = -eNoMem ∧ space.vm.room 0 = false ∧ spare space.vm = 0)

/-- The range does not wrap around and does not run into a vma from below, and there is an object for its vma
or the swap manager is off; unless the start of the range is taken or the machine's range is not one of user addresses. -/
def Clear (space : AddressSpace α) (addr len : Nat) : Prop :=
  userAccess (low addr) (machineEnd addr len) = false ∨ (∃ vma ∈ space.mm.mmapList, vma.holds (low addr)) ∨
    (addr + len < 2 ^ 64 ∧ (∀ vma ∈ space.mm.mmapList, ¬ RunsInto (low addr) (high addr len) vma) ∧
      (space.vm.swapInitOk = true → ¬ (space.vm.room 0 = false ∧ spare space.vm = 0)))

/-- A space whose vmas and references are in order. -/
structure Sound (roots : Finset Nat) (kernel : Nat → Prop) (space : AddressSpace α) : Prop where
  valid : Valid space.mm
  counts : ∃ role idle, Counted space.vm roots kernel idle (fun _ => 0) role

section
variable {addr len : Nat} {vmFlags : VmFlags} {roots : Finset Nat} {kernel : Nat → Prop}

theorem apart_iff {start finish : Nat} : Apart other ⟨start, finish, vmFlags⟩ ↔ ¬ RunsInto start finish other := by
  change other.vmEnd ≤ start ∨ finish ≤ other.vmStart ↔ _
  unfold RunsInto
  omega

/-- Behind the checks of `mm_map`, with no vma at the start of the range. -/
theorem mapVma_settles (sound : Sound roots kernel space) (accepted : userAccess (low addr) (machineEnd addr len) = true)
    (free : ∀ vma ∈ space.mm.mmapList, ¬ vma.holds (low addr)) :
    Settles (mapVma (low addr) (machineEnd addr len) vmFlags)
      (fun vma after => (Answered space after addr len vmFlags (.ok vma) ↔ Clear space addr len) ∧ Sound roots kernel after)
      (fun ret after => (Answered space after addr len vmFlags (.error ret) ↔ Clear space addr len) ∧ Sound roots kernel after)
      (¬ Clear space addr len) space := by
  obtain ⟨valid, role, idle, counted⟩ := sound
  have order := userAccess_iff.mp accepted
  have clear : Clear space addr len ↔ ¬ Refused space.mm addr len ∧
      (space.vm.swapInitOk = true → ¬ (space.vm.room 0 = false ∧ spare space.vm = 0)) := by
    rw [refused_iff accepted, and_assoc, Clear, accepted]
    constructor
    · rintro (never | ⟨vma, member, holds⟩ | rest)
      · cases never
      · exact absurd holds (free vma member)
      · exact rest
    · exact fun rest => .inr (.inr rest)
  rw [clear]
  refine .bind (.bind (.within ((kmalloc_settles counted fun has empty on => ?_).weaken (fun ok vm held => ?_) fun _ _ never => never)))
  · exact fun both => both.2 on ⟨has, empty⟩
  obtain ⟨⟨role', idle', counted', -⟩, short, off⟩ := held
  cases ok with
  | false =>
    refine .pure (.fail ⟨?_, valid, role', idle', counted'⟩)
    have enough : space.vm.swapInitOk = true → ¬ (space.vm.room 0 = false ∧ spare space.vm = 0) := by
      rw [off rfl]
      exact fun never => absurd never Bool.false_ne_true
    rw [and_iff_left enough]
    constructor
    · intro answered refused
      exact absurd (answered.invalid.mpr refused) (by decide)
    · intro fine
      refine ⟨iff_of_false (by decide) fine, nofun, ?_⟩
      rintro ret ⟨⟩
      exact ⟨rfl, fun _ => ⟨rfl, short.mp rfl⟩⟩
  | true =>
    have enough : space.vm.swapInitOk = true → ¬ (space.vm.room 0 = false ∧ spare space.vm = 0) :=
      fun _ both => Bool.noConfusion (short.mpr both)
    rw [and_iff_left enough]
    refine .pure (.bind (insertVmaStruct_settles valid order.2.1 (fun apart => .pure ⟨?_, ?_, role', idle', counted'⟩) ?_))
    · constructor
      · intro answered refused
        cases answered.invalid.mpr refused
      · intro fine
        have fits := ((refused_iff accepted).mp fine).1
        refine ⟨iff_of_false nofun fine, ?_, nofun⟩
        rintro _ ⟨⟩
        exact ⟨by rw [machineEnd_high accepted fits], placed_perm _ _⟩
    · have aligned : low addr % pgsize = 0 ∧ machineEnd addr len % pgsize = 0 := by
        rw [machineEnd, roundup, rounddown_low]
        exact ⟨Nat.mul_mod_left _ _, Nat.mul_mod_left _ _⟩
      have user : userbase ≤ low addr ∧ machineEnd addr len ≤ usertop := ⟨order.1, order.2.2⟩
      exact @placed_valid space.mm ⟨low addr, machineEnd addr len, vmFlags⟩ valid order.2.1 aligned user apart
    · rintro ⟨other, member, overlap⟩ fine
      obtain ⟨fits, apart⟩ := (refused_iff accepted).mp fine
      rw [apart_iff, machineEnd_high accepted fits] at overlap
      exact overlap (apart other member)

/-- Exactly the clear requests are answered as they should be. -/
theorem mmMap_settles (sound : Sound roots kernel space) :
    Settles (mmMap addr len vmFlags)
      (fun vma after => (Answered space after addr len vmFlags (.ok vma) ↔ Clear space addr len) ∧ Sound roots kernel after)
      (fun ret after => (Answered space after addr len vmFlags (.error ret) ↔ Clear space addr len) ∧ Sound roots kernel after)
      (¬ Clear space addr len) space := by
  have refused {after : AddressSpace α} (is_refused : Refused space.mm addr len) (same : after.mm.mmapList = space.mm.mmapList) :
      Answered space after addr len vmFlags (.error (-eInval)) := by
    refine ⟨iff_of_true rfl is_refused, nofun, ?_⟩
    rintro ret ⟨⟩
    exact ⟨same, fun never => absurd rfl never⟩
  have machine : roundup (word (addr + len)) pgsize = machineEnd addr len := rfl
  rw [mmMap, rounddown_low, machine]
  cases accepted : userAccess (low addr) (machineEnd addr len) with
  | false => exact .fail ⟨iff_of_true (refused (.inl (refused_of_machine accepted)) rfl) (.inl accepted), sound⟩
  | true =>
    have order := userAccess_iff.mp accepted
    rw [Bool.not_true, if_neg Bool.false_ne_true]
    by_cases held : ∃ vma ∈ space.mm.mmapList, vma.holds (low addr)
    · obtain ⟨vma, member, holds⟩ := held
      obtain ⟨cached, found, looked⟩ := findVma_some sound.valid.wellformed member holds
      have ran : Returns (findVma (low addr)) space (some vma) { space with mm := cached } := by
        rw [Returns, findVma, found]
      have inside := holds_iff.mp holds
      have is_refused : Refused space.mm addr len := by
        by_contra fine
        obtain ⟨fits, apart⟩ := (refused_iff accepted).mp fine
        have same := machineEnd_high accepted fits
        apply apart vma member
        unfold RunsInto
        omega
      have below : vma.vmStart < machineEnd addr len := inside.1.trans_lt order.2.1
      refine .bind (.of_run ran ?_)
      dsimp only
      rw [if_pos below]
      exact .fail ⟨iff_of_true (refused is_refused looked.mmapList) (.inr (.inl ⟨vma, member, holds⟩)), sound.valid.looked looked, sound.counts⟩
    · have free : ∀ vma ∈ space.mm.mmapList, ¬ vma.holds (low addr) := fun vma member holds => held ⟨vma, member, holds⟩
      have ran : Returns (findVma (low addr)) space none space := by
        rw [Returns, findVma, findVma_none sound.valid.wellformed free]
      exact .bind (.of_run ran (mapVma_settles sound accepted free))

end

end Ucore.MmMap
