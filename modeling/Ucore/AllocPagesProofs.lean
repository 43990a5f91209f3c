import Ucore.AllocPages

/-! `alloc_pages` when the memory runs out. A request for one page that finds none
goes to the swap manager, whatever `check_mm_struct` is and whatever is on the list
of swappable pages. One victim is enough: it gives back the page that the next turn
of the loop takes. -/
namespace Ucore.AllocPages
open Call DefaultPmm ListHeader Paging Runs

variable {machine after : Machine} {mm : Mm} {page frame index : Nat} {start total n turns : Nat} {heap : Heap}
  {extents : List Extents.Extent}

/-! ## Swapping one page out -/

/-- Where the page table entry of an address is. -/
def ptep (mem : Nat → Nat → Nat) (pgdir la : Nat) : Option (Nat × Nat) :=
  let pde1 := mem pgdir (pdx1 la)
  let pde0 := mem (ppn pde1) (pdx0 la)
  if valid pde1 && ppn pde1 < Paging.npage && valid pde0 && ppn pde0 < Paging.npage then
    some (ppn pde0, ptx la)
  else none

theorem getPte_returns {slot : Nat × Nat} : Returns (getPte pgdir la) machine (some slot) after ↔
    ptep machine.mem pgdir la = some slot ∧ machine = after := by
  simp only [getPte, ptep, returns_bind, returns_gets]
  constructor
  · rintro ⟨_, _, ⟨rfl, rfl⟩, ran⟩
    split at ran
    · cases (returns_pure.mp ran).1
    · obtain ⟨_, _, inside, ran⟩ := returns_bind.mp ran
      obtain ⟨below, rfl⟩ := returns_assert.mp inside
      split at ran
      · cases (returns_pure.mp ran).1
      · obtain ⟨_, _, inside', ran⟩ := returns_bind.mp ran
        obtain ⟨below', rfl⟩ := returns_assert.mp inside'
        obtain ⟨same, rfl⟩ := returns_pure.mp ran
        simp_all
  · rintro ⟨found, rfl⟩
    refine ⟨machine, machine, ⟨rfl, rfl⟩, ?_⟩
    split at found
    · rename_i there
      simp only [Bool.and_eq_true, decide_eq_true_eq] at there
      obtain ⟨⟨⟨valid1, below1⟩, valid0⟩, below0⟩ := there
      simp only [valid1, valid0, below1, below0, Bool.not_true, Bool.false_eq_true, ↓reduceIte, decide_true]
      exact returns_bind.mpr ⟨(), machine, returns_assert.mpr ⟨rfl, rfl⟩,
        returns_bind.mpr ⟨(), machine, returns_assert.mpr ⟨rfl, rfl⟩, returns_pure.mpr ⟨found, rfl⟩⟩⟩
    · cases found

/-- The first listed page is there at the address that it was mapped at. -/
structure Victim (machine : Machine) (mm : Mm) (page frame index : Nat) : Prop where
  manages : mm.smPriv = true
  first : listNext machine.pra .praListHead = .praPageLink page
  mapped : ptep machine.mem mm.pgdir (machine.praVaddr page) = some (frame, index)
  present : valid (machine.mem frame index) = true

/-- The page is off the list and on the disk, and its entry says where. -/
def swapped (machine : Machine) (page frame index : Nat) (area : Area) : Machine :=
  let entry := swapEntry (machine.praVaddr page)
  { machine with
    area := area
    pra := listDel machine.pra (.praPageLink page)
    swap := Function.update machine.swap (swapOffset entry machine.maxSwapOffset) (machine.mem (page2ppn page))
    mem := Function.update machine.mem frame (Function.update (machine.mem frame) index entry) }

def DiskFits (machine : Machine) : Prop := 0 < machine.maxSwapOffset ∧ machine.maxSwapOffset < maxSwapOffsetLimit

theorem fifoSwapOutVictim_returns : Returns (fifoSwapOutVictim check) machine page after ↔
    ∃ mm, check = some mm ∧ mm.smPriv = true ∧ listNext machine.pra .praListHead = .praPageLink page ∧
      { machine with pra := listDel machine.pra (.praPageLink page) } = after := by
  cases check with
  | none => simp [fifoSwapOutVictim, not_returns_stop]
  | some mm =>
    simp only [fifoSwapOutVictim, returns_bind, returns_assert, returns_gets]
    constructor
    · rintro ⟨_, _, ⟨manages, rfl⟩, _, _, ⟨rfl, rfl⟩, ran⟩
      split at ran
      · exact absurd ran not_returns_stop
      · rename_i victim first
        obtain ⟨_, _, unlinked, ran⟩ := returns_bind.mp ran
        obtain ⟨rfl, rfl⟩ := returns_pure.mp ran
        exact ⟨mm, rfl, manages, first, returns_modify.mp unlinked⟩
    · rintro ⟨_, ⟨⟩, manages, first, rfl⟩
      refine ⟨(), machine, ⟨manages, rfl⟩, machine, machine, ⟨rfl, rfl⟩, ?_⟩
      rw [first]
      exact returns_bind.mpr ⟨(), _, returns_modify.mpr rfl, returns_pure.mpr ⟨rfl, rfl⟩⟩

/-- The swap disk is small enough for every offset on it to be one of the disk's sectors. -/
theorem swapfsWrite_returns (fits : DiskFits machine) : Returns (swapfsWrite entry page) machine saved after ↔
    saved = 0 ∧ { machine with
      swap := Function.update machine.swap (swapOffset entry machine.maxSwapOffset) (machine.mem (page2ppn page)) } = after := by
  have below : swapOffset entry machine.maxSwapOffset < 2 ^ 24 :=
    (Nat.mod_lt _ fits.1).trans fits.2
  have inside : (swapOffset entry machine.maxSwapOffset * pageNsect < maxDiskNsecs &&
      swapOffset entry machine.maxSwapOffset * pageNsect + pageNsect ≤ maxDiskNsecs) = true := by
    rw [pageNsect, maxDiskNsecs]
    simp only [Bool.and_eq_true, decide_eq_true_eq]
    omega
  simp only [swapfsWrite, returns_bind, returns_gets]
  constructor
  · rintro ⟨_, _, ⟨rfl, rfl⟩, _, _, checked, _, _, written, ran⟩
    obtain ⟨-, rfl⟩ := returns_assert.mp checked
    obtain ⟨same, rfl⟩ := returns_pure.mp ran
    exact ⟨same.symm, returns_modify.mp written⟩
  · rintro ⟨rfl, rfl⟩
    exact ⟨machine, machine, ⟨rfl, rfl⟩, (), machine, returns_assert.mpr ⟨inside, rfl⟩, (), _,
      returns_modify.mpr rfl, returns_pure.mpr ⟨rfl, rfl⟩⟩

theorem freePage_returns {result : Unit} : Returns (freePage page) machine result after ↔
    ∃ area, defaultFreePages machine.area page 1 = some area ∧ { machine with area := area } = after := by
  simp only [freePage, returns_bind, returns_gets]
  constructor
  · rintro ⟨_, _, ⟨rfl, rfl⟩, ran⟩
    split at ran
    · exact absurd ran not_returns_stop
    · rename_i area freed
      exact ⟨area, freed, returns_modify.mp ran⟩
  · rintro ⟨area, freed, rfl⟩
    refine ⟨machine, machine, ⟨rfl, rfl⟩, ?_⟩
    rw [freed]
    exact returns_modify.mpr rfl

/-- Swapping one page out returns only with a victim whose page can be given back. -/
theorem swapOut_one (fits : DiskFits machine) {result : Unit} :
    Returns (swapOut check 1) machine result after ↔
      ∃ mm page frame index area, check = some mm ∧ Victim machine mm page frame index ∧
        defaultFreePages machine.area page 1 = some area ∧ swapped machine page frame index area = after := by
  have fits' (pra : Ring.Links PraNode) : DiskFits { machine with pra := pra } := fits
  simp only [swapOut, returns_bind, fifoSwapOutVictim_returns, returns_gets]
  constructor
  · rintro ⟨page, _, ⟨mm, rfl, manages, first, rfl⟩, _, _, ⟨rfl, rfl⟩, ran⟩
    simp only [returns_bind] at ran
    obtain ⟨slot, _, walked, ran⟩ := ran
    cases slot with
    | none => exact absurd ran not_returns_stop
    | some slot =>
      obtain ⟨frame, index⟩ := slot
      obtain ⟨mapped, rfl⟩ := getPte_returns.mp walked
      simp only [returns_bind, returns_gets] at ran
      obtain ⟨_, _, ⟨rfl, rfl⟩, _, _, checked, saved, _, written, ran⟩ := ran
      obtain ⟨present, rfl⟩ := returns_assert.mp checked
      obtain ⟨rfl, rfl⟩ := (swapfsWrite_returns (fits' _)).mp written
      simp only [ne_eq, not_true_eq_false, ↓reduceIte, returns_bind, returns_modify] at ran
      obtain ⟨_, _, rfl, _, _, given, ran⟩ := ran
      obtain ⟨area, freed, rfl⟩ := freePage_returns.mp given
      obtain ⟨-, rfl⟩ := returns_pure.mp ran
      exact ⟨mm, page, frame, index, area, rfl, ⟨manages, first, mapped, present⟩, freed, rfl⟩
  · rintro ⟨mm, page, frame, index, area, rfl, victim, freed, rfl⟩
    refine ⟨page, _, ⟨mm, rfl, victim.manages, victim.first, rfl⟩, _, _, ⟨rfl, rfl⟩, ?_⟩
    simp only [returns_bind]
    refine ⟨some (frame, index), _, getPte_returns.mpr ⟨victim.mapped, rfl⟩, ?_⟩
    simp only [returns_bind, returns_gets]
    refine ⟨_, _, ⟨rfl, rfl⟩, (), _, returns_assert.mpr ⟨victim.present, rfl⟩, 0, _,
      (swapfsWrite_returns (fits' _)).mpr ⟨rfl, rfl⟩, ?_⟩
    simp only [ne_eq, not_true_eq_false, ↓reduceIte, returns_bind, returns_modify]
    exact ⟨(), _, rfl, (), _, freePage_returns.mpr ⟨area, freed, rfl⟩, returns_pure.mpr ⟨rfl, rfl⟩⟩

/-! ## The loop -/

theorem pmmAllocPages_returns {page : Option Nat} : Returns (pmmAllocPages n) machine page after ↔
    ∃ area, defaultAllocPages machine.area n = some (page, area) ∧ { machine with area := area } = after := by
  simp only [pmmAllocPages, returns_bind, returns_gets]
  constructor
  · rintro ⟨_, _, ⟨rfl, rfl⟩, ran⟩
    split at ran
    · exact absurd ran not_returns_stop
    · rename_i found area allocated
      obtain ⟨_, _, written, ran⟩ := returns_bind.mp ran
      obtain ⟨rfl, rfl⟩ := returns_pure.mp ran
      exact ⟨area, allocated, returns_modify.mp written⟩
  · rintro ⟨area, allocated, rfl⟩
    refine ⟨machine, machine, ⟨rfl, rfl⟩, ?_⟩
    rw [allocated]
    exact returns_bind.mpr ⟨(), _, returns_modify.mpr rfl, returns_pure.mpr ⟨rfl, rfl⟩⟩

/-- The page manager found a block, or nothing tries to make one. -/
theorem allocPages_ends {page : Option Nat} {area : Area} (turns : Nat)
    (allocated : defaultAllocPages machine.area n = some (page, area))
    (leaves : page.isSome ∨ 1 < n ∨ machine.swapInitOk = false) :
    Returns (allocPages n (turns + 1)) machine page { machine with area := area } := by
  simp only [allocPages, returns_bind, returns_gets]
  refine ⟨page, _, pmmAllocPages_returns.mpr ⟨area, allocated, rfl⟩, _, _, ⟨rfl, rfl⟩, ?_⟩
  have leaves : (page.isSome || 1 < n || !machine.swapInitOk) = true := by simpa [or_assoc] using leaves
  rw [if_pos leaves]
  exact returns_pure.mpr ⟨rfl, rfl⟩

/-- Without a free page the loop goes on behind `swap_out`. -/
theorem allocPages_again {page : Option Nat} (turns : Nat)
    (refused : defaultAllocPages machine.area 1 = some (none, machine.area)) (on : machine.swapInitOk = true) :
    Returns (allocPages 1 (turns + 1)) machine page after ↔
      ∃ between, Returns (swapOut machine.checkMmStruct 1) machine () between ∧
        Returns (allocPages 1 turns) between page after := by
  have stays : ¬ ((none : Option Nat).isSome || 1 < 1 || !machine.swapInitOk) = true := by simp [on]
  rw [allocPages, returns_bind]
  constructor
  · rintro ⟨_, _, ran, rest⟩
    obtain ⟨area, allocated, rfl⟩ := pmmAllocPages_returns.mp ran
    cases refused.symm.trans allocated
    obtain ⟨_, _, read, rest⟩ := returns_bind.mp rest
    obtain ⟨rfl, rfl⟩ := returns_gets.mp read
    rw [if_neg stays] at rest
    obtain ⟨_, between, out, rest⟩ := returns_bind.mp rest
    exact ⟨between, out, rest⟩
  · rintro ⟨between, out, rest⟩
    refine ⟨none, machine, pmmAllocPages_returns.mpr ⟨machine.area, refused, rfl⟩, ?_⟩
    refine returns_bind.mpr ⟨_, _, returns_gets.mpr ⟨rfl, rfl⟩, ?_⟩
    rw [if_neg stays]
    exact returns_bind.mpr ⟨(), between, out, rest⟩

/-! ## Runs -/

variable {state final : State} {event : Event}

/-- The page manager is in order, and swap is off or has a disk. -/
structure Sound (start total : Nat) (state : State) : Prop where
  fit : ∃ extents, FirstFit start total state.heap extents
  disk : state.machine.swapInitOk = true → DiskFits state.machine

/-- Callers ask for a page at least and give back only what they hold; `mm_create` has
given each `mm` its list. -/
def Lawful (state : State) : Event → Prop
  | .alloc n => 1 ≤ n
  | .free base n => (DefaultPmm.Call.freePages base n).Valid state.heap
  | .mapSwappable mm _ _ => ∃ pgdir, mm = some ⟨pgdir, true⟩
  | .swapInit deviceSize => 7 ≤ deviceSize / pageNsect ∧ deviceSize / pageNsect < maxSwapOffsetLimit
  | _ => True

/-- No block is given back above every listed one. -/
def Placed (state : State) : Event → Prop
  | .free base n => ¬ (DefaultPmm.Call.freePages base n).AboveLast state.heap
  | _ => True

/-- A request that finds no block does not get to the swap manager, or there is a
`check_mm_struct` in which the first listed page is still there. -/
def Covered (start total : Nat) (state : State) : Event → Prop
  | .alloc n => (∃ p, FreeBlock start total state.held n p) ∨ 1 < n ∨ state.machine.swapInitOk = false ∨
      ∃ mm page frame index, state.machine.checkMmStruct = some mm ∧ Victim state.machine mm page frame index ∧
        page ∈ state.held
  | _ => True

/-- What a request for `n` pages comes to. -/
inductive Outcome (start total n : Nat) (state after : State) : Prop where
  | supplied (p : Nat) (block : FreeBlock start total state.held n p) (result : after.result = some p)
      (held : after.held = state.held ∪ Finset.Ico p (p + n))
      (kept : after.machine = { state.machine with area := after.machine.area })
  | refused (none : ¬ ∃ p, FreeBlock start total state.held n p) (leaves : 1 < n ∨ state.machine.swapInitOk = false)
      (same : after = { state with result := Option.none })
  | swappedOut (page frame index : Nat) (none : ¬ ∃ p, FreeBlock start total state.held n p) (one : n = 1)
      (first : listNext state.machine.pra .praListHead = .praPageLink page) (out : page ∈ state.held)
      (result : after.result = some page) (held : after.held = state.held)
      (kept : after.machine = swapped state.machine page frame index after.machine.area)

def Good (start total : Nat) (state : State) (event : Event) (after : State) : Prop :=
  match event with
  | .alloc n => Outcome start total n state after
  | _ => True

theorem step_supplied (ran : Returns (allocPages n turns) state.machine (some page) after) :
    step turns state (.alloc n) = some ⟨after, state.held ∪ Finset.Ico page (page + n), some page⟩ := by
  rw [step, ran]

theorem step_refused (ran : Returns (allocPages n turns) state.machine none after) :
    step turns state (.alloc n) = some ⟨after, state.held, none⟩ := by
  rw [step, ran]

theorem alloc_step (ran : step turns state (.alloc n) = some final) :
    ∃ page after, Returns (allocPages n turns) state.machine page after ∧ final.result = page := by
  rw [step] at ran
  split at ran
  · rename_i page after allocated
    cases ran
    exact ⟨page, after, allocated, rfl⟩
  · cases ran

/-- A free page is all the memory there is for a request of one page. -/
theorem full_list (fit : FirstFit start total heap extents)
    (full : ¬ ∃ p, FreeBlock start total heap.held 1 p) : extents = [] := by
  rcases extents with _ | ⟨e, rest⟩
  · rfl
  · have positive := fit.coalesced.positive e (by simp)
    have free := (fit.free e.start).mp ⟨e, by simp, Nat.le_refl _, by simp only [Extents.Extent.stop]; omega⟩
    refine absurd ⟨e.start, fun i low high => ?_⟩ full
    obtain rfl : i = e.start := by omega
    exact free

/-- The page that is given back into full memory is the one that the next turn takes. -/
theorem take_back (fit : FirstFit start total heap extents)
    (full : ¬ ∃ p, FreeBlock start total heap.held 1 p) (out : page ∈ heap.held) :
    ∃ freed area extents', defaultFreePages heap.area page 1 = some freed ∧
      defaultAllocPages freed 1 = some (some page, area) ∧ FirstFit start total ⟨area, heap.held⟩ extents' := by
  obtain rfl := full_list fit full
  have lone (i : Nat) (low : page ≤ i) (high : i < page + 1) : i = page := by omega
  have place : ¬ DefaultPmm.Call.AboveLast heap (.freePages page 1) := by
    rintro ⟨last, atEnd, -⟩
    have prev := fit.listed.ring.prev_head
    simp [listPrev, prev, linksOf] at atEnd
  obtain ⟨freed, after, gaveBack, fit'⟩ := fit.free_pages (le_refl 1)
    (fun i low high => lone i low high ▸ out) place
  have bounds := fit.held page out
  have free : FreeBlock start total (heap.held \ Finset.Ico page (page + 1)) 1 page := by
    intro i low high
    obtain rfl := lone i low high
    exact ⟨bounds.1, bounds.2, by simp⟩
  rcases fit'.alloc (le_refl 1) with refused | ⟨p, area, extents', granted, unheld, fit''⟩
  · exact absurd ⟨page, free⟩ (fit'.alloc_none (le_refl 1) refused)
  · have inRange := fit''.held p (by simp)
    have isPage : p = page := by
      by_contra other
      have fresh := unheld p (le_refl p) (by omega)
      refine full ⟨p, fun i low high => ?_⟩
      obtain rfl : i = p := by omega
      refine ⟨inRange.1, inRange.2, fun held => fresh ?_⟩
      simp only [Finset.mem_sdiff, Finset.mem_Ico]
      exact ⟨held, by omega⟩
    subst isPage
    refine ⟨freed, area, extents', gaveBack, granted, ?_⟩
    have same : heap.held \ Finset.Ico p (p + 1) ∪ Finset.Ico p (p + 1) = heap.held := by
      rw [Nat.Ico_succ_singleton, Finset.sdiff_union_of_subset (by simpa using out)]
    rwa [same] at fit''

/-- A covered request returns what the claim of a page allocator is, and the system stays sound. -/
theorem Sound.alloc (sound : Sound start total state) (nonzero : 1 ≤ n)
    (covered : Covered start total state (.alloc n)) :
    ∃ after, step (turns + 2) state (.alloc n) = some after ∧ Outcome start total n state after ∧
      Sound start total after := by
  obtain ⟨extents, fit⟩ := sound.fit
  rcases fit.alloc nonzero with refused | ⟨p, area, extents', granted, unheld, fit'⟩
  · have none := fit.alloc_none nonzero refused
    by_cases leaves : 1 < n ∨ state.machine.swapInitOk = false
    · have ran := allocPages_ends (turns + 1) refused (.inr leaves)
      exact ⟨_, step_refused ran, .refused none leaves rfl, ⟨extents, fit⟩, sound.disk⟩
    · have one : n = 1 := by omega
      have on : state.machine.swapInitOk = true := by simpa using fun off => leaves (.inr off)
      subst one
      obtain ⟨mm, page, frame, index, check, victim, out⟩ :
          ∃ mm page frame index, state.machine.checkMmStruct = some mm ∧ Victim state.machine mm page frame index ∧
            page ∈ state.held := by
        rcases covered with block | more | off | listed
        · exact absurd block none
        · exact absurd more (lt_irrefl 1)
        · exact absurd (.inr off) leaves
        · exact listed
      obtain ⟨freed, area, extents', gaveBack, granted, fit'⟩ := take_back fit none out
      have granted' : defaultAllocPages (swapped state.machine page frame index freed).area 1 = some (some page, area) :=
        granted
      have ran := (allocPages_again (turns + 1) refused on).mpr ⟨_,
        (swapOut_one (sound.disk on)).mpr ⟨mm, page, frame, index, freed, check, victim, gaveBack, rfl⟩,
        allocPages_ends turns granted' (.inl rfl)⟩
      have same : state.held ∪ Finset.Ico page (page + 1) = state.held := by
        rw [Nat.Ico_succ_singleton, Finset.union_eq_left]
        simpa using out
      refine ⟨_, step_supplied ran, .swappedOut page frame index none rfl victim.first out rfl same rfl, ?_, sound.disk⟩
      rw [same]
      exact ⟨extents', fit'⟩
  · have granted : defaultAllocPages state.machine.area n = some (some p, area) := granted
    have ran := allocPages_ends (turns + 1) granted (.inl rfl)
    refine ⟨_, step_supplied ran, .supplied p (fun i low high => ?_) rfl rfl rfl, ⟨extents', fit'⟩, sound.disk⟩
    have inRange := fit'.held i (Finset.mem_union_right _ (Finset.mem_Ico.mpr ⟨low, high⟩))
    exact ⟨inRange.1, inRange.2, unheld i low high⟩

/-- A request that comes out right was covered. -/
theorem Sound.covered_of_outcome (sound : Sound start total state) (ran : step (turns + 1) state (.alloc n) = some final)
    (outcome : Outcome start total n state final) (nonzero : 1 ≤ n) : Covered start total state (.alloc n) := by
  cases outcome with
  | supplied p block => exact .inl ⟨p, block⟩
  | refused _ leaves _ => exact .inr (leaves.imp_right .inl)
  | swappedOut page frame index none one first out =>
    subst one
    by_cases on : state.machine.swapInitOk = true
    · obtain ⟨extents, fit⟩ := sound.fit
      obtain ⟨_, _, allocated, _⟩ := alloc_step ran
      rcases fit.alloc nonzero with refused | ⟨p, area, extents', granted, unheld, fit'⟩
      · obtain ⟨_, swappedOut, _⟩ := (allocPages_again turns refused on).mp allocated
        obtain ⟨mm, page', frame', index', _, check, victim, _⟩ := (swapOut_one (sound.disk on)).mp swappedOut
        have same := first.symm.trans victim.first
        cases same
        exact .inr (.inr (.inr ⟨mm, page, frame', index', check, victim, out⟩))
      · refine .inl ⟨p, fun i low high => ?_⟩
        have inRange := fit'.held i (Finset.mem_union_right _ (Finset.mem_Ico.mpr ⟨low, high⟩))
        exact ⟨inRange.1, inRange.2, unheld i low high⟩
    · exact .inr (.inr (.inl (by simpa using on)))

/-- Every other event of a lawful run passes and keeps the system sound. -/
theorem Sound.other (turns : Nat) (sound : Sound start total state) (lawful : Lawful state event) (placed : Placed state event)
    (other : ∀ n, event ≠ .alloc n) : ∃ after, step turns state event = some after ∧ Sound start total after := by
  obtain ⟨extents, fit⟩ := sound.fit
  cases event with
  | alloc n => exact absurd rfl (other n)
  | free base n =>
    obtain ⟨area, after, freed, fit'⟩ := fit.free_pages lawful.1 lawful.2 placed
    have freed : defaultFreePages state.machine.area base n = some area := freed
    exact ⟨{ state with machine := { state.machine with area := area }, held := state.held \ Finset.Ico base (base + n) },
      by rw [step, freed]; rfl, ⟨after, fit'⟩, sound.disk⟩
  | mapSwappable mm la page =>
    obtain ⟨pgdir, rfl⟩ := lawful
    exact ⟨_, rfl, ⟨extents, fit⟩, sound.disk⟩
  | initMm => exact ⟨_, rfl, ⟨extents, fit⟩, sound.disk⟩
  | setCheckMm mm => exact ⟨_, rfl, ⟨extents, fit⟩, sound.disk⟩
  | swapInit deviceSize =>
    obtain ⟨many, few⟩ : 7 ≤ deviceSize / pageNsect ∧ deviceSize / pageNsect < maxSwapOffsetLimit := lawful
    let machine := { state.machine with maxSwapOffset := deviceSize / pageNsect, swapInitOk := true }
    have ran : Returns (swapInit deviceSize) state.machine () machine :=
      returns_bind.mpr ⟨(), _, returns_assert.mpr ⟨by simp [many, few], rfl⟩, returns_modify.mpr rfl⟩
    exact ⟨{ state with machine := machine }, by rw [step, run, ran], ⟨extents, fit⟩,
      fun _ => ⟨Nat.lt_of_lt_of_le (by decide) many, few⟩⟩
  | tables mem => exact ⟨_, rfl, ⟨extents, fit⟩, sound.disk⟩

/-- `pmm_init` has given the page manager its pages, and nothing has asked for one. -/
structure Booted (base n : Nat) (state : State) : Prop where
  held : state.held = ∅
  off : state.machine.swapInitOk = false
  memory : ∃ area, (∀ i, base ≤ i → i < base + n → (area.pages i).pgReserved = true) ∧ base + n ≤ area.npage ∧
    0 < uint n ∧ defaultInitMemmap (defaultInit area) base n = some state.machine.area

theorem Booted.sound (booted : Booted base n state) : Sound base (uint n) state := by
  obtain ⟨area, reserved, room, positive, initialised⟩ := booted.memory
  have nonzero : 0 < n := Nat.lt_of_lt_of_le positive (Nat.mod_le ..)
  obtain ⟨area', ran, listed, count, npage⟩ := initMemmap_listed reserved nonzero
  obtain rfl := Option.some.inj (ran.symm.trans initialised)
  refine ⟨⟨[⟨base, uint n⟩], ?_⟩, fun on => ?_⟩
  · rw [State.heap, booted.held]
    exact initial_fit listed count (npage ▸ room) positive
  · rw [booted.off] at on
    cases on

/-- From the boot on, every call of `alloc_pages` hands out a block of free pages where there
is one, swaps one page out where there is none, or refuses and changes nothing, if and only if
every request that gets to the swap manager finds a `check_mm_struct` and a victim. -/
theorem alloc_pages_contract_iff (booted : Booted base n state)
    (lawful : Along (step (turns + 2)) Lawful state events) (placed : Along (step (turns + 2)) Placed state events) :
    Safe (step (turns + 2)) (Good base (uint n)) state events ↔
      Along (step (turns + 2)) (Covered base (uint n)) state events := by
  refine safe_iff_along_where (fun state event sound (legal : Lawful state event ∧ Placed state event) => ?_) ?_
    booted.sound (lawful.and placed)
  · cases event with
    | alloc n =>
      constructor
      · rintro ⟨after, ran, outcome⟩
        exact sound.covered_of_outcome ran outcome legal.1
      · intro covered
        obtain ⟨after, ran, outcome, -⟩ := sound.alloc legal.1 covered
        exact ⟨after, ran, outcome⟩
    | _ =>
      obtain ⟨after, ran, -⟩ := sound.other (turns + 2) legal.1 legal.2 nofun
      exact ⟨fun _ => trivial, fun _ => ⟨after, ran, trivial⟩⟩
  · intro state event after sound legal covered ran
    cases event with
    | alloc n =>
      obtain ⟨after', ran', -, sound'⟩ := sound.alloc legal.1 covered
      cases ran.symm.trans ran'
      exact sound'
    | _ =>
      obtain ⟨after', ran', sound'⟩ := sound.other (turns + 2) legal.1 legal.2 nofun
      cases ran.symm.trans ran'
      exact sound'

/-! ## A machine with two pages -/

/-- The boot of two pages; no list has been made yet. -/
def twoPagesBoot : State where
  machine := {
    area := (defaultInitMemmap (defaultInit twoPages) 0 2).getD twoPages
    pra := ⟨id, id⟩
    praVaddr := fun _ => 0
    mem := fun _ _ => 0
    swap := fun _ _ => 0
    maxSwapOffset := 0
    swapInitOk := false
    checkMmStruct := none }
  held := ∅
  result := none

theorem twoPagesBoot_booted : Booted 0 2 twoPagesBoot where
  held := rfl
  off := rfl
  memory := ⟨twoPages, fun _ _ _ => rfl, le_refl 2, by decide, rfl⟩

theorem alloc_pages_contract_two :
    let events : List Event := [.initMm, .swapInit 56, .alloc 2, .alloc 1]
    Safe (step 2) (Good 0 2) twoPagesBoot events ↔ Along (step 2) (Covered 0 2) twoPagesBoot events := by
  apply alloc_pages_contract_iff twoPagesBoot_booted
  · apply along_of_forall
    simp [Lawful, pageNsect, maxSwapOffsetLimit]
  · apply along_of_forall
    simp [Placed]

/-- With both pages out and the swap manager on, `alloc_pages` hands the null
`check_mm_struct` to `swap_out`. -/
theorem exhausted_memory_follows_null :
    ∃ full, Runs.run (step 2) twoPagesBoot [.swapInit 56, .alloc 2] = some full ∧ full.machine.swapInitOk = true ∧
      full.machine.checkMmStruct = none ∧ ∀ turns, step turns full (.alloc 1) = none := by
  refine ⟨_, rfl, rfl, rfl, fun turns => ?_⟩
  cases turns <;> rfl

end Ucore.AllocPages
