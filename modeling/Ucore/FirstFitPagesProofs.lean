import Ucore.FirstFitPages
import Ucore.PagingManagers

/-! What the page tables may rely on of the first-fit manager. As long as its free list
is in order it hands out the lowest page that is left, and takes a page back that is not
above its last block. -/
namespace Ucore.FirstFitPages
open DefaultPmm ListHeader Paging Extents Ucore.Call

variable {area after : Area} {region : Region} {page frame base n : Nat}

theorem free_iff : region.free frame = true ↔ nbase + region.start ≤ frame ∧
    frame < nbase + region.start + region.total ∧ frame - nbase ∉ region.heap.held := by
  simp [Region.free, and_assoc]

/-! ## Reserved pages stay reserved -/

/-- No page is reserved anew, or let go. -/
def SameReserved (pages pages' : Nat → Page) : Prop := ∀ page, (pages' page).pgReserved = (pages page).pgReserved

theorem update_reserved {pages : Nat → Page} {value : Page} (same : value.pgReserved = (pages page).pgReserved) :
    SameReserved pages (Function.update pages page value) := by
  intro other
  by_cases here : other = page
  · rw [here, Function.update_self, same]
  · rw [Function.update_of_ne here]

theorem markBlock_reserved (pages : Nat → Page) (base size : Nat) : SameReserved pages (markBlock pages base size) :=
  update_reserved rfl

theorem clearPageProperty_reserved (pages : Nat → Page) (page : Nat) : SameReserved pages (clearPageProperty pages page) :=
  update_reserved rfl

theorem SameReserved.trans {first second third : Nat → Page} (earlier : SameReserved first second)
    (later : SameReserved second third) : SameReserved first third := fun page => (later page).trans (earlier page)

theorem takeBlock_reserved (area : Area) (page n : Nat) : SameReserved area.pages (takeBlock area page n).pages := by
  simp only [takeBlock]
  split
  · exact (markBlock_reserved _ _ _).trans (clearPageProperty_reserved _ _)
  · exact clearPageProperty_reserved _ _

theorem allocPages_reserved {found : Option Nat} (ran : defaultAllocPages area n = some (found, after)) :
    SameReserved area.pages after.pages := by
  unfold defaultAllocPages at ran
  split at ran
  · cases ran
  split at ran
  · cases ran
    exact fun _ => rfl
  obtain ⟨block, _, ran⟩ := Option.bind_eq_some_iff.mp ran
  cases block with
  | none =>
    cases ran
    exact fun _ => rfl
  | some block =>
    cases ran
    exact takeBlock_reserved _ _ _

theorem absorb_reserved (area : Area) (p q size : Nat) : SameReserved area.pages (absorb area p q size).pages := by
  have grown : SameReserved area.pages (Function.update area.pages p
      { area.pages p with property := uint ((area.pages p).property + size) }) := update_reserved rfl
  exact grown.trans (clearPageProperty_reserved _ _)

theorem mergePrev_reserved (area : Area) (base : Nat) : SameReserved area.pages (mergePrev area base).1.pages := by
  unfold mergePrev
  split
  · exact fun _ => rfl
  · split
    · exact absorb_reserved _ _ _ _
    · exact fun _ => rfl

theorem mergeNext_reserved (area : Area) (base : Nat) : SameReserved area.pages (mergeNext area base).pages := by
  unfold mergeNext
  split
  · exact fun _ => rfl
  · split
    · exact absorb_reserved _ _ _ _
    · exact fun _ => rfl

theorem resetAllocated_reserved {pages pages' : Nat → Page} (ran : resetAllocated n base pages = some pages') :
    SameReserved pages pages' := by
  induction n generalizing base pages with
  | zero =>
    cases ran
    exact fun _ => rfl
  | succ n ih =>
    unfold resetAllocated at ran
    split at ran
    · rename_i usable
      have unreserved : (pages base).pgReserved = false := by
        rw [Bool.and_eq_true] at usable
        simpa using usable.1
      exact (update_reserved unreserved.symm).trans (ih ran)
    · cases ran

theorem freePages_reserved (ran : defaultFreePages area base n = some after) : SameReserved area.pages after.pages := by
  unfold defaultFreePages at ran
  split at ran
  · cases ran
  obtain ⟨pages, reset, ran⟩ := Option.bind_eq_some_iff.mp ran
  obtain ⟨links, _, ran⟩ := Option.bind_eq_some_iff.mp ran
  let listed : Area := { area with pages := markBlock pages base (uint n), links := links, nrFree := uint (area.nrFree + n) }
  have merged : mergeNext (mergePrev listed base).1 (mergePrev listed base).2 = after := Option.some.inj ran
  have marked : SameReserved area.pages listed.pages := (resetAllocated_reserved reset).trans (markBlock_reserved _ _ _)
  rw [← merged]
  exact marked.trans ((mergePrev_reserved _ _).trans (mergeNext_reserved _ _))

theorem resetReserved_outside {pages pages' : Nat → Page} (ran : resetReserved n base pages = some pages')
    (outside : ¬ (base ≤ page ∧ page < base + n)) : (pages' page).pgReserved = (pages page).pgReserved := by
  induction n generalizing base pages with
  | zero =>
    cases ran
    rfl
  | succ n ih =>
    unfold resetReserved at ran
    split at ran
    · have later := ih ran (by omega)
      have apart : page ≠ base := by omega
      rw [later, Function.update_of_ne apart]
    · cases ran

theorem initMemmap_outside (ran : defaultInitMemmap area base n = some after) (outside : ¬ (base ≤ page ∧ page < base + n)) :
    (after.pages page).pgReserved = (area.pages page).pgReserved := by
  unfold defaultInitMemmap at ran
  split at ran
  · cases ran
  obtain ⟨pages, reset, ran⟩ := Option.bind_eq_some_iff.mp ran
  obtain ⟨links, _, ran⟩ := Option.bind_eq_some_iff.mp ran
  cases ran
  exact (markBlock_reserved _ _ _ page).trans (resetReserved_outside reset outside)

/-- The manager is in order after the boot, and has the whole range left. -/
theorem pageInit_ordered {start total : Nat} (nonempty : 0 < total) (inside : nbase + start + total ≤ npage) :
    ∃ area, pageInit start total = some area ∧ area.toRegion.Ordered ∧ area.aboveLast = false ∧
      ∀ frame, area.toRegion.free frame = true ↔ nbase + start ≤ frame ∧ frame < nbase + start + total := by
  let machine : Area := ⟨npage - nbase, fun _ => ⟨0, true, false, 0⟩, ⟨id, id⟩, 0⟩
  have few : npage < 2 ^ 32 := by decide
  have whole : uint total = total := Nat.mod_eq_of_lt (by omega)
  have reserved : ∀ i, start ≤ i → i < start + total → (machine.pages i).pgReserved = true := fun _ _ _ => rfl
  obtain ⟨booted, ran, listed, count, pages⟩ := initMemmap_listed reserved nonempty
  have room : start + total ≤ booted.npage := by
    rw [pages]
    dsimp only [machine]
    omega
  have positive : 0 < uint total := by rwa [whole]
  have fit := initial_fit listed count room positive
  rw [whole] at fit
  refine ⟨⟨⟨start, total, ⟨booted, ∅⟩⟩, false⟩, by rw [pageInit, ran]; rfl, ⟨⟨_, fit⟩, inside, fun page _ outside => ?_⟩, rfl, fun frame => ?_⟩
  · rw [initMemmap_outside ran outside]
    rfl
  · rw [free_iff]
    exact ⟨fun all => ⟨all.1, all.2.1⟩, fun both => ⟨both.1, both.2, Finset.notMem_empty _⟩⟩

/-! ## The lowest page -/

/-- The free pages are those of the listed blocks. -/
theorem free_covered {extents : List Extent} (fit : FirstFit region.start region.total region.heap extents) :
    region.free frame = true ↔ nbase ≤ frame ∧ Covers extents (frame - nbase) := by
  rw [free_iff, fit.free]
  constructor
  · rintro ⟨low, high, unheld⟩
    exact ⟨by omega, by omega, by omega, unheld⟩
  · rintro ⟨memory, low, high, unheld⟩
    exact ⟨by omega, by omega, unheld⟩

/-- A request for one page is answered from the first listed block, which has the lowest pages. -/
theorem FirstFit.alloc_lowest {start total : Nat} {heap : Heap} {extents : List Extent} (fit : FirstFit start total heap extents)
    (ran : defaultAllocPages heap.area 1 = some (some page, after)) {i : Nat} (left : Covers extents i) :
    Covers extents page ∧ page ≤ i := by
  have found := findBlock_first (n := 1) fit.listed.ring.linked fit.listed.sized fit.length_lt
  unfold defaultAllocPages at ran
  split at ran
  · cases ran
  split at ran
  · cases ran
  rw [found] at ran
  cases extents with
  | nil =>
    obtain ⟨e, member, _⟩ := left
    cases member
  | cons first rest =>
    have positive := fit.coalesced.positive first List.mem_cons_self
    have large : decide (1 ≤ first.size) = true := decide_eq_true positive
    have search : (first :: rest).find? (fun e => decide (1 ≤ e.size)) = some first := List.find?_cons_of_pos large
    rw [search] at ran
    obtain rfl : first.start = page := by
      cases ran
      rfl
    refine ⟨⟨first, List.mem_cons_self, le_rfl, ?_⟩, ?_⟩
    · simp only [Extent.stop]
      omega
    · obtain ⟨e, member, low, _⟩ := left
      rcases List.mem_cons.mp member with rfl | later
      · exact low
      · have order := (coalesced_cons.mp fit.coalesced).2.2 e later
        simp only [Extent.stop] at order
        omega

/-- A page that is handed out is the lowest of those that were left, and the list stays in order. -/
structure Lowest (region after : Region) (frame : Nat) : Prop where
  was : region.free frame = true
  first : ∀ other, region.free other = true → frame ≤ other
  left : after.free = Function.update region.free frame false
  ordered : after.Ordered

/-- A page that is given back is left again, and the list stays in order. -/
structure Back (region after : Region) (frame : Nat) : Prop where
  left : after.free = Function.update region.free frame true
  ordered : after.Ordered

theorem Region.Ordered.memory (ordered : region.Ordered) (free : region.free frame = true) : nbase ≤ frame ∧ frame < npage := by
  obtain ⟨low, high, _⟩ := free_iff.mp free
  have inside := ordered.inside
  omega

/-- What is left of the range where one page is handed out or given back. -/
theorem free_eq {held : Finset Nat} (rest : ∀ other, other ≠ page → (other ∈ held ↔ other ∈ region.heap.held))
    (inside : region.start ≤ page ∧ page < region.start + region.total) :
    (⟨region.start, region.total, ⟨after, held⟩⟩ : Region).free =
      Function.update region.free (nbase + page) (decide (page ∉ held)) := by
  funext other
  by_cases here : other = nbase + page
  · rw [here, Function.update_self, Bool.eq_iff_iff, free_iff, decide_eq_true_eq, Nat.add_sub_cancel_left]
    dsimp only
    constructor
    · exact fun all => all.2.2
    · exact fun unheld => ⟨by omega, by omega, unheld⟩
  · rw [Function.update_of_ne here, Bool.eq_iff_iff, free_iff, free_iff]
    dsimp only
    refine and_congr_right fun low => and_congr_right fun _ => not_congr (rest _ ?_)
    omega

theorem allocPages_lowest (ordered : region.Ordered) :
    (∃ frame after, Returns allocPages region (some frame) after ∧ Lowest region after frame) ∨
      Returns allocPages region none region ∧ ∀ frame, region.free frame = false := by
  obtain ⟨extents, fit⟩ := ordered.listed
  rcases fit.alloc le_rfl with refused | ⟨page, area, extents', granted, unheld, fit'⟩
  · refine .inr ⟨?_, fun frame => ?_⟩
    · refine returns_bind.mpr ⟨_, _, returns_gets.mpr ⟨rfl, rfl⟩, ?_⟩
      rw [refused]
      exact returns_bind.mpr ⟨(), region, returns_modify.mpr rfl, returns_pure.mpr ⟨rfl, rfl⟩⟩
    · by_contra free
      obtain ⟨low, high, unheld⟩ := free_iff.mp (Bool.not_eq_false _ ▸ free)
      apply fit.alloc_none le_rfl refused
      refine ⟨frame - nbase, fun i above below => ?_⟩
      have same : i = frame - nbase := by omega
      rw [same]
      exact ⟨by omega, by omega, unheld⟩
  · have taken : page ∈ region.heap.held ∪ Finset.Ico page (page + 1) :=
      Finset.mem_union_right _ (Finset.mem_Ico.mpr ⟨le_rfl, Nat.lt_succ_self _⟩)
    have inside := fit'.held page taken
    have was : region.free (nbase + page) = true :=
      free_iff.mpr ⟨by omega, by omega, by rw [Nat.add_sub_cancel_left]; exact unheld page le_rfl (Nat.lt_succ_self _)⟩
    refine .inl ⟨nbase + page, { region with heap := ⟨area, region.heap.held ∪ Finset.Ico page (page + 1)⟩ }, ?_, was, ?_, ?_, ?_⟩
    · refine returns_bind.mpr ⟨_, _, returns_gets.mpr ⟨rfl, rfl⟩, ?_⟩
      rw [granted]
      exact returns_bind.mpr ⟨(), _, returns_modify.mpr rfl, returns_pure.mpr ⟨rfl, rfl⟩⟩
    · intro other free
      obtain ⟨memory, covered⟩ := (free_covered fit).mp free
      have lowest := (FirstFit.alloc_lowest fit granted covered).2
      omega
    · have rest : ∀ other, other ≠ page → (other ∈ region.heap.held ∪ Finset.Ico page (page + 1) ↔ other ∈ region.heap.held) := by
        intro other apart
        rw [Finset.mem_union, Finset.mem_Ico]
        refine or_iff_left fun here => apart ?_
        omega
      rw [free_eq rest inside, decide_eq_false (not_not_intro taken)]
    · exact ⟨⟨extents', fit'⟩, ordered.inside, fun other memory outside =>
        (allocPages_reserved granted other).trans (ordered.reserved other memory outside)⟩

theorem above_iff : region.above frame = true ↔ DefaultPmm.Call.AboveLast region.heap (.freePages (frame - nbase) 1) := by
  simp only [Region.above, DefaultPmm.Call.AboveLast]
  cases last : listPrev region.heap.area.links .freeList with
  | freeList => simp
  | pageLink page => simp

/-- A page that is handed out is taken back below some listed block. -/
theorem freePages_held (ordered : region.Ordered) (memory : nbase ≤ frame) (held : frame - nbase ∈ region.heap.held)
    (place : region.above frame = false) : ∃ after, Returns (freePages frame) region () after ∧ Back region after frame := by
  obtain ⟨extents, fit⟩ := ordered.listed
  have inside := fit.held _ held
  have out : ∀ i, frame - nbase ≤ i → i < frame - nbase + 1 → i ∈ region.heap.held := by
    intro i low high
    have same : i = frame - nbase := by omega
    rwa [same]
  have below : ¬ DefaultPmm.Call.AboveLast region.heap (.freePages (frame - nbase) 1) := by
    rw [← above_iff, place]
    exact Bool.false_ne_true
  obtain ⟨area, extents', freed, fit'⟩ := fit.free_pages le_rfl out below
  refine ⟨{ region with heap := ⟨area, region.heap.held \ Finset.Ico (frame - nbase) (frame - nbase + 1)⟩ }, ?_, ?_, ?_⟩
  · refine returns_bind.mpr ⟨(), region, returns_assert.mpr ⟨decide_eq_true memory, rfl⟩, ?_⟩
    refine returns_bind.mpr ⟨_, _, returns_gets.mpr ⟨rfl, rfl⟩, ?_⟩
    rw [freed]
    exact returns_modify.mpr rfl
  · have rest : ∀ other, other ≠ frame - nbase →
        (other ∈ region.heap.held \ Finset.Ico (frame - nbase) (frame - nbase + 1) ↔ other ∈ region.heap.held) := by
      intro other apart
      rw [Finset.mem_sdiff, Finset.mem_Ico]
      refine and_iff_left fun here => apart ?_
      omega
    have gone : frame - nbase ∉ region.heap.held \ Finset.Ico (frame - nbase) (frame - nbase + 1) := by
      rw [Finset.mem_sdiff, Finset.mem_Ico]
      exact fun both => both.2 ⟨le_rfl, Nat.lt_succ_self _⟩
    rw [free_eq rest inside, decide_eq_true gone, Nat.add_sub_cancel' memory]
  · exact ⟨⟨extents', fit'⟩, ordered.inside, fun other memory outside =>
      (freePages_reserved freed other).trans (ordered.reserved other memory outside)⟩

/-- A reserved page is none of the manager's, and stops it. -/
theorem freePages_reserved_stops (memory : nbase ≤ frame) (reserved : (region.heap.area.pages (frame - nbase)).pgReserved = true) :
    freePages frame region = none := by
  have stuck : defaultFreePages region.heap.area (frame - nbase) 1 = none := by
    simp [defaultFreePages, resetAllocated, reserved]
  refine stops_bind.mpr (.inr ⟨(), region, returns_assert.mpr ⟨decide_eq_true memory, rfl⟩, ?_⟩)
  refine stops_bind.mpr (.inr ⟨_, _, returns_gets.mpr ⟨rfl, rfl⟩, ?_⟩)
  rw [stuck]
  rfl

/-- A page that is in use is taken back or refused. -/
theorem freePages_back (ordered : region.Ordered) (memory : nbase ≤ frame ∧ frame < npage) (used : region.free frame = false)
    (place : region.above frame = false) :
    (∃ after, Returns (freePages frame) region () after ∧ Back region after frame) ∨ freePages frame region = none := by
  by_cases inside : region.start ≤ frame - nbase ∧ frame - nbase < region.start + region.total
  · refine .inl (freePages_held ordered memory.1 (by_contra fun unheld => ?_) place)
    have free : region.free frame = true := free_iff.mpr ⟨by omega, by omega, unheld⟩
    rw [used] at free
    cases free
  · have managed : nbase + (frame - nbase) < npage := by omega
    exact .inr (freePages_reserved_stops memory.1 (ordered.reserved (frame - nbase) managed inside))

/-! ## The managers -/

/-- The manager gives pages out in order, whatever it took back before. -/
instance : LawfulManager FreeArea where
  gives_out area ordered := by
    rcases allocPages_lowest ordered with ⟨frame, after, ran, lowest⟩ | ⟨ran, none_left⟩
    · refine .inl ⟨frame, { area with toRegion := after }, returns_within.mpr ⟨after, ran, rfl⟩, ?_⟩
      exact ⟨lowest.was, ordered.memory lowest.was, lowest.left, lowest.ordered⟩
    · exact .inr ⟨returns_within.mpr ⟨_, ran, rfl⟩, fun frame _ _ => none_left frame⟩

instance : LawfulManager Guarded where
  gives_out guarded ordered := by
    rcases allocPages_lowest ordered with ⟨frame, after, ran, lowest⟩ | ⟨ran, none_left⟩
    · refine .inl ⟨frame, ⟨after⟩, returns_within.mpr ⟨after, ran, rfl⟩, ?_⟩
      exact ⟨lowest.was, ordered.memory lowest.was, lowest.left, lowest.ordered⟩
    · exact .inr ⟨returns_within.mpr ⟨_, ran, rfl⟩, fun frame _ _ => none_left frame⟩

theorem guarded_takes_back : TakesBack Guarded True := by
  intro guarded frame ordered low high used
  cases place : guarded.toRegion.above frame with
  | true =>
    refine .inr ⟨stops_bind.mpr (.inr ⟨_, _, returns_gets.mpr ⟨place, rfl⟩, ?_⟩), trivial⟩
    exact stops_bind.mpr (.inl rfl)
  | false =>
    rcases freePages_back ordered ⟨low, high⟩ used place with ⟨after, ran, back⟩ | stopped
    · refine .inl ⟨⟨after⟩, ?_, back.left, back.ordered⟩
      refine returns_bind.mpr ⟨_, _, returns_gets.mpr ⟨place, rfl⟩, ?_⟩
      refine returns_bind.mpr ⟨(), guarded, returns_assert.mpr ⟨rfl, rfl⟩, ?_⟩
      exact returns_within.mpr ⟨after, ran, rfl⟩
    · refine .inr ⟨stops_bind.mpr (.inr ⟨_, _, returns_gets.mpr ⟨place, rfl⟩, ?_⟩), trivial⟩
      refine stops_bind.mpr (.inr ⟨(), guarded, returns_assert.mpr ⟨rfl, rfl⟩, ?_⟩)
      exact Option.map_eq_none_iff.mpr stopped

/-! ## Until it goes astray -/

def FreeArea.guarded (area : FreeArea) : Guarded := ⟨area.toRegion⟩

/-- A page was given back above the last block that was listed. -/
def FreeArea.Astray (area : FreeArea) : Prop := area.aboveLast = true

theorem onRegion_follows {γ : Type} (call : Ucore.Call Region γ) : Follows FreeArea.Astray FreeArea.guarded
    (within FreeArea.toRegion (fun region area => { area with toRegion := region }) call)
    (within Guarded.toRegion (fun region _ => ⟨region⟩) call) := by
  constructor
  · have any : Keeps (fun _ => True) call := fun _ _ _ _ _ => trivial
    exact keeps_within any (fun _ _ => trivial) fun _ _ astray _ => astray
  · intro area outcome after ran _
    obtain ⟨⟨value, region⟩, ended, same⟩ := Option.map_eq_some_iff.mp ran
    obtain ⟨rfl, rfl⟩ := Prod.mk.inj same
    have part : call area.guarded.toRegion = some (value, region) := ended
    rw [within, part]
    rfl

/-- Until it has gone astray, the manager does what it would do if it stopped there. -/
theorem managers : Managers FreeArea.Astray FreeArea.guarded where
  allocPages := onRegion_follows allocPages
  freePages frame := by
    have gives := onRegion_follows (freePages frame)
    constructor
    · refine keeps_bind (keeps_modify fun area astray => ?_) fun _ => gives.remains
      have still : area.aboveLast = true := astray
      rw [FreeArea.Astray, still, Bool.true_or]
    · intro area outcome after ran found
      let marked : FreeArea := { area with aboveLast := area.aboveLast || area.toRegion.above frame }
      have rest : within FreeArea.toRegion (fun region area => { area with toRegion := region }) (freePages frame) marked =
          some (outcome, after) := ran
      have place : area.toRegion.above frame = false := by
        by_contra above
        have above : area.toRegion.above frame = true := by simpa using above
        have astray : (area.aboveLast || area.toRegion.above frame) = true := by rw [above, Bool.or_true]
        exact found (gives.remains marked astray outcome after rest)
      have same := gives.follows marked outcome after rest found
      have allowed : area.guarded.toRegion.above frame = false := place
      simp only [PmmManager.freePages, Bind.bind, gets, allowed, Bool.not_false, Call.assert]
      exact same

/-! ## The map of the pages that are left -/

/-- What a manager's call comes to for the pages that are left. -/
def left {γ : Type} (call : Ucore.Call Guarded γ) (guarded : Guarded) : Option (Except Int γ × (Nat → Bool)) :=
  (call guarded).map fun (outcome, after) => (outcome, after.toRegion.free)

/-- While its list is in order, the manager gives out what the map of the pages that are left gives out. -/
theorem allocPages_map {guarded : Guarded} (ordered : guarded.toRegion.Ordered) :
    left PmmManager.allocPages guarded = PmmManager.allocPages guarded.toRegion.free := by
  have limit : nbase + (npage - nbase) = npage := rfl
  rcases allocPages_lowest ordered with ⟨frame, after, ran, lowest⟩ | ⟨ran, none_left⟩
  · have gave : Returns PmmManager.allocPages guarded (some frame) ⟨after⟩ := returns_within.mpr ⟨after, ran, rfl⟩
    have memory := ordered.memory lowest.was
    have found : (List.range' nbase (npage - nbase)).find? guarded.toRegion.free = some frame := by
      refine List.find?_range'_eq_some.mpr ⟨lowest.was, List.mem_range'_1.mpr ⟨memory.1, by omega⟩, fun other _ below => ?_⟩
      by_contra free
      have first := lowest.first other (by simpa using free)
      omega
    have map : Returns PmmManager.allocPages guarded.toRegion.free (some frame) after.free := by
      refine returns_bind.mpr ⟨some frame, _, returns_gets.mpr ⟨found, rfl⟩, ?_⟩
      exact returns_bind.mpr ⟨(), _, returns_modify.mpr lowest.left.symm, returns_pure.mpr ⟨rfl, rfl⟩⟩
    rw [left, gave, map]
    rfl
  · have gave : Returns PmmManager.allocPages guarded none guarded := returns_within.mpr ⟨_, ran, rfl⟩
    have missed : (List.range' nbase (npage - nbase)).find? guarded.toRegion.free = none :=
      List.find?_eq_none.mpr fun frame _ => by rw [none_left frame]; exact Bool.false_ne_true
    have map : Returns PmmManager.allocPages guarded.toRegion.free none guarded.toRegion.free :=
      returns_bind.mpr ⟨none, _, returns_gets.mpr ⟨missed, rfl⟩, returns_pure.mpr ⟨rfl, rfl⟩⟩
    rw [left, gave, map]
    rfl

/-- A page that it has handed out is taken back as the map takes it. -/
theorem freePages_map {guarded : Guarded} (ordered : guarded.toRegion.Ordered) (memory : nbase ≤ frame)
    (held : frame - nbase ∈ guarded.heap.held) (place : guarded.toRegion.above frame = false) :
    left (PmmManager.freePages frame) guarded = PmmManager.freePages frame guarded.toRegion.free := by
  obtain ⟨after, ran, back⟩ := freePages_held ordered memory held place
  have gave : Returns (PmmManager.freePages frame) guarded () ⟨after⟩ := by
    refine returns_bind.mpr ⟨_, _, returns_gets.mpr ⟨place, rfl⟩, ?_⟩
    refine returns_bind.mpr ⟨(), guarded, returns_assert.mpr ⟨rfl, rfl⟩, ?_⟩
    exact returns_within.mpr ⟨after, ran, rfl⟩
  have used : (!guarded.toRegion.free frame) = true := by
    rw [Bool.not_eq_true']
    by_contra free
    exact (free_iff.mp (by simpa using free)).2.2 held
  have map : Returns (PmmManager.freePages frame) guarded.toRegion.free () after.free := by
    refine returns_bind.mpr ⟨true, _, returns_gets.mpr ⟨used, rfl⟩, ?_⟩
    exact returns_bind.mpr ⟨(), _, returns_assert.mpr ⟨rfl, rfl⟩, returns_modify.mpr back.left.symm⟩
  rw [left, gave, map]
  rfl

end Ucore.FirstFitPages
