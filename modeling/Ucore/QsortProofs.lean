import Ucore.Qsort
import Ucore.Ranges

/-! `qsort` sorts every array, of any length, for every comparison that is a total
preorder, and does nothing but exchange elements of the array. -/
namespace Ucore.Qsort
open Ranges

variable {α : Type*} {cmp : α → α → Int} {cells : ℕ → α} {a n i j k r : ℕ} {s : Scan α}

/-! ## Exchanges -/

theorem swap_left : swap cells i j i = cells j := congrArg cells (Equiv.swap_apply_left i j)

theorem swap_right : swap cells i j j = cells i := congrArg cells (Equiv.swap_apply_right i j)

theorem vecswap_rearranged (front : a ≤ i) (back : i + r ≤ a + n) (front' : a ≤ j) (back' : j + r ≤ a + n) :
    Rearranged a n cells (vecswap i j r cells) := by
  induction r generalizing i j cells with
  | zero => exact .refl a n cells
  | succ r ih =>
    have first : Rearranged a n cells (swap cells i j) := by apply Rearranged.swap <;> omega
    apply first.trans
    apply ih <;> omega

/-- Two blocks that do not meet change places. -/
theorem vecswap_at (apart : i + r ≤ j) :
    (∀ k < r, vecswap i j r cells (i + k) = cells (j + k) ∧ vecswap i j r cells (j + k) = cells (i + k)) ∧
      ∀ k, (k < i ∨ i + r ≤ k) → (k < j ∨ j + r ≤ k) → vecswap i j r cells k = cells k := by
  induction r generalizing i j cells with
  | zero => exact ⟨nofun, fun _ _ _ => rfl⟩
  | succ r ih =>
    obtain ⟨moved, kept⟩ := @ih (swap cells i j) (i + 1) (j + 1) (by omega)
    constructor
    · intro k below
      cases k with
      | zero =>
        constructor
        · exact (kept i (by omega) (by omega)).trans swap_left
        · exact (kept j (by omega) (by omega)).trans swap_right
      | succ k =>
        have here := moved k (by omega)
        have front : i + 1 + k = i + (k + 1) := by omega
        have back : j + 1 + k = j + (k + 1) := by omega
        rw [front, back] at here
        constructor
        · exact here.1.trans (swap_other (by omega) (by omega))
        · exact here.2.trans (swap_other (by omega) (by omega))
    · intro k out out'
      exact (kept k (by omega) (by omega)).trans (swap_other (by omega) (by omega))

/-! ## Insertion -/

/-- The element at `p` is the only one that may be too far back. -/
structure SortedBut (cmp : α → α → Int) (cells : ℕ → α) (a n p : ℕ) : Prop where
  others : ∀ i j, a ≤ i → i < j → j < a + n → i ≠ p → j ≠ p → cmp (cells i) (cells j) ≤ 0
  behind : ∀ j, p < j → j < a + n → cmp (cells p) (cells j) ≤ 0

theorem sink_sorts (compares : Compares cmp) (inside : k < n) (sorted : SortedBut cmp cells a n (a + k)) :
    SortedOn cmp (sink cmp a k cells) a n ∧ Rearranged a n cells (sink cmp a k cells) := by
  induction k generalizing cells with
  | zero =>
    refine ⟨fun i j front before back => ?_, .refl a n cells⟩
    by_cases first : i = a
    · subst i
      exact sorted.behind j before back
    · exact sorted.others i j front before back first (by omega)
  | succ k ih =>
    rw [sink]
    split
    · rename_i above
      have below : cmp (cells (a + k + 1)) (cells (a + k)) ≤ 0 := compares.le_of_nonneg above.le
      have sorted' : SortedBut cmp (swap cells (a + k + 1) (a + k)) a n (a + k) := by
        constructor
        · intro i j front before back other other'
          by_cases first : i = a + k + 1
          · subst i
            rw [swap_left, swap_other (by omega) (by omega)]
            exact sorted.others (a + k) j (by omega) (by omega) back (by omega) (by omega)
          · rw [swap_other first other]
            by_cases second : j = a + k + 1
            · subst j
              rw [swap_left]
              exact sorted.others i (a + k) front (by omega) (by omega) first (by omega)
            · rw [swap_other second other']
              exact sorted.others i j front before back first second
        · intro j before back
          rw [swap_right]
          by_cases next : j = a + k + 1
          · subst j
            rw [swap_left]
            exact below
          · rw [swap_other next (by omega)]
            exact sorted.behind j (by omega) back
      obtain ⟨done, same⟩ := ih (by omega) sorted'
      exact ⟨done, (Rearranged.swap (by omega) (by omega)).trans same⟩
    · rename_i in_order
      have in_order : cmp (cells (a + k)) (cells (a + (k + 1))) ≤ 0 := le_of_not_gt in_order
      refine ⟨fun i j front before back => ?_, .refl a n cells⟩
      by_cases first : i = a + (k + 1)
      · subst i
        exact sorted.behind j before back
      · by_cases second : j = a + (k + 1)
        · subst j
          by_cases next : i = a + k
          · subst i
            exact in_order
          · have ahead := sorted.others i (a + k) front (by omega) (by omega) first (by omega)
            exact compares.chains _ _ _ ahead in_order
        · exact sorted.others i j front before back first second

theorem SortedOn.extend (sorted : SortedOn cmp cells a k) : SortedBut cmp cells a (k + 1) (a + k) :=
  ⟨fun i j front before back other other' => sorted i j front before (by omega), fun j before back => by omega⟩

theorem insertionLoop_sorts (compares : Compares cmp) {more : ℕ} (some_cells : 0 < k) (sorted : SortedOn cmp cells a k) :
    SortedOn cmp (insertionLoop cmp a k more cells) a (k + more) ∧ Rearranged a (k + more) cells (insertionLoop cmp a k more cells) := by
  induction more generalizing k cells with
  | zero => exact ⟨sorted, .refl a k cells⟩
  | succ more ih =>
    obtain ⟨sorted, moved⟩ := sink_sorts compares (Nat.lt_succ_self k) (SortedOn.extend sorted)
    obtain ⟨done, same⟩ := ih (Nat.succ_pos k) sorted
    have count : k + 1 + more = k + (more + 1) := by omega
    rw [count] at done same
    exact ⟨done, (moved.widen le_rfl (by omega)).trans same⟩

theorem sortedOn_small (few : n ≤ 1) : SortedOn cmp cells a n := fun i j front before back => by omega

theorem insertionSort_sorts (compares : Compares cmp) :
    SortedOn cmp (insertionSort cmp a n cells) a n ∧ Rearranged a n cells (insertionSort cmp a n cells) := by
  by_cases empty : n = 0
  · subst n
    exact ⟨sortedOn_small (Nat.zero_le 1), .refl a 0 cells⟩
  · have count : 1 + (n - 1) = n := by omega
    have sorts : SortedOn cmp (insertionSort cmp a n cells) a (1 + (n - 1)) ∧ Rearranged a (1 + (n - 1)) cells (insertionSort cmp a n cells) :=
      insertionLoop_sorts compares Nat.one_pos (sortedOn_small le_rfl)
    rwa [count] at sorts

/-! ## Partition -/

theorem med3_mem (cmp : α → α → Int) (cells : ℕ → α) (i j k : ℕ) :
    med3 cmp cells i j k = i ∨ med3 cmp cells i j k = j ∨ med3 cmp cells i j k = k := by
  unfold med3
  split_ifs <;> simp

theorem med3_inside (first : a ≤ i ∧ i < a + n) (second : a ≤ j ∧ j < a + n) (third : a ≤ k ∧ k < a + n) :
    a ≤ med3 cmp cells i j k ∧ med3 cmp cells i j k < a + n := by
  rcases med3_mem cmp cells i j k with same | same | same <;> rw [same] <;> assumption

theorem choose_inside (some_cells : 1 < n) : a ≤ choose cmp a n cells ∧ choose cmp a n cells < a + n := by
  unfold choose
  dsimp only
  split
  · split
    · apply med3_inside
      all_goals
        apply med3_inside
        all_goals omega
    · apply med3_inside
      all_goals omega
  · omega

/-- What the pointers have gone past: elements equal to the first at both ends, and between them smaller elements
in front and larger ones behind. -/
structure Split (cmp : α → α → Int) (a n : ℕ) (s : Scan α) : Prop where
  equal : ∀ i, a ≤ i → i < s.pa → cmp (s.cells i) (s.cells a) = 0
  below : ∀ i, s.pa ≤ i → i < s.pb → cmp (s.cells i) (s.cells a) < 0
  above : ∀ i, s.pc < i → i ≤ s.pd → 0 < cmp (s.cells i) (s.cells a)
  equal_back : ∀ i, s.pd < i → i < a + n → cmp (s.cells i) (s.cells a) = 0

theorem scanUp_splits (within : Within a n s) (splits : Split cmp a n s) :
    Split cmp a n (scanUp cmp a s) ∧ Rearranged a n s.cells (scanUp cmp a s).cells := by
  obtain ⟨front, equal, between, equal_back, back⟩ := within
  fun_induction scanUp cmp a s with
  | case1 s => exact ⟨splits, .refl a n _⟩
  | case2 s inside _ zero ih =>
    have first : swap s.cells s.pa s.pb a = s.cells a := swap_other (by omega) (by omega)
    have moved : Split cmp a n { s with pa := s.pa + 1, pb := s.pb + 1, cells := swap s.cells s.pa s.pb, swapCnt := true } := by
      constructor <;> dsimp only <;> rw [first] <;> intro i lower upper
      · by_cases last : i = s.pa
        · rw [last, swap_left]
          exact zero
        · rw [swap_other last (by omega)]
          exact splits.equal i lower (by omega)
      · by_cases last : i = s.pb
        · rw [last, swap_right]
          exact splits.below s.pa le_rfl (by omega)
        · rw [swap_other (by omega) last]
          exact splits.below i (by omega) (by omega)
      · rw [swap_other (by omega) (by omega)]
        exact splits.above i lower upper
      · rw [swap_other (by omega) (by omega)]
        exact splits.equal_back i lower upper
    obtain ⟨done, same⟩ := ih moved (by dsimp only; omega) (by dsimp only; omega) (by dsimp only; omega) equal_back back
    exact ⟨done, (Rearranged.swap (by omega) (by omega)).trans same⟩
  | case3 s inside above zero ih =>
    have moved : Split cmp a n { s with pb := s.pb + 1 } := by
      refine ⟨splits.equal, fun i lower upper => ?_, splits.above, splits.equal_back⟩
      by_cases last : i = s.pb
      · rw [last]
        exact lt_of_le_of_ne (le_of_not_gt above) zero
      · exact splits.below i lower (by dsimp only at upper; omega)
    exact ih moved front (by dsimp only; omega) (by dsimp only; omega) equal_back back
  | case4 s => exact ⟨splits, .refl a n _⟩

theorem scanDown_splits (within : Within a n s) (splits : Split cmp a n s) :
    Split cmp a n (scanDown cmp a s) ∧ Rearranged a n s.cells (scanDown cmp a s).cells := by
  obtain ⟨front, equal, between, equal_back, back⟩ := within
  fun_induction scanDown cmp a s with
  | case1 s => exact ⟨splits, .refl a n _⟩
  | case2 s inside _ zero ih =>
    have first : swap s.cells s.pc s.pd a = s.cells a := swap_other (by omega) (by omega)
    have moved : Split cmp a n { s with pc := s.pc - 1, pd := s.pd - 1, cells := swap s.cells s.pc s.pd, swapCnt := true } := by
      constructor <;> dsimp only <;> rw [first] <;> intro i lower upper
      · rw [swap_other (by omega) (by omega)]
        exact splits.equal i lower upper
      · rw [swap_other (by omega) (by omega)]
        exact splits.below i lower upper
      · by_cases last : i = s.pc
        · rw [last, swap_left]
          exact splits.above s.pd (by omega) le_rfl
        · rw [swap_other last (by omega)]
          exact splits.above i (by omega) (by omega)
      · by_cases last : i = s.pd
        · rw [last, swap_right]
          exact zero
        · rw [swap_other (by omega) last]
          exact splits.equal_back i (by omega) upper
    obtain ⟨done, same⟩ := ih moved front equal (by dsimp only; omega) (by dsimp only; omega) (by dsimp only; omega)
    exact ⟨done, (Rearranged.swap (by omega) (by omega)).trans same⟩
  | case3 s inside below zero ih =>
    have moved : Split cmp a n { s with pc := s.pc - 1 } := by
      refine ⟨splits.equal, splits.below, fun i lower upper => ?_, splits.equal_back⟩
      by_cases last : i = s.pc
      · rw [last]
        exact lt_of_le_of_ne (le_of_not_gt below) (Ne.symm zero)
      · exact splits.above i (by dsimp only at lower; omega) upper
    exact ih moved front equal (by dsimp only; omega) (by dsimp only; omega) back
  | case4 s => exact ⟨splits, .refl a n _⟩

theorem partitionLoop_splits (within : Within a n s) (splits : Split cmp a n s) :
    Split cmp a n (partitionLoop cmp a s) ∧ Rearranged a n s.cells (partitionLoop cmp a s).cells := by
  have scanned (s : Scan α) (within : Within a n s) (splits : Split cmp a n s) :
      Split cmp a n (scan cmp a s) ∧ Rearranged a n s.cells (scan cmp a s).cells := by
    obtain ⟨splits, moved⟩ := scanUp_splits within splits
    obtain ⟨splits, moved'⟩ := scanDown_splits (scanUp_within cmp within).1 splits
    exact ⟨splits, moved.trans moved'⟩
  fun_induction partitionLoop cmp a s with
  | case1 s crossed => exact scanned s within splits
  | case2 s uncrossed ih =>
    obtain ⟨splits, moved⟩ := scanned s within splits
    obtain ⟨⟨front, equal, between, equal_back, back⟩, facing⟩ := scan_within cmp within
    have apart := facing.apart cmp (by omega)
    obtain ⟨above, below⟩ := facing (by omega)
    have first : swap (scan cmp a s).cells (scan cmp a s).pb (scan cmp a s).pc a = (scan cmp a s).cells a :=
      swap_other (by omega) (by omega)
    have exchanged : Split cmp a n { scan cmp a s with
        pb := (scan cmp a s).pb + 1
        pc := (scan cmp a s).pc - 1
        cells := swap (scan cmp a s).cells (scan cmp a s).pb (scan cmp a s).pc
        swapCnt := true } := by
      constructor <;> dsimp only <;> rw [first] <;> intro i lower upper
      · rw [swap_other (by omega) (by omega)]
        exact splits.equal i lower upper
      · by_cases last : i = (scan cmp a s).pb
        · rw [last, swap_left]
          exact below
        · rw [swap_other last (by omega)]
          exact splits.below i lower (by omega)
      · by_cases last : i = (scan cmp a s).pc
        · rw [last, swap_right]
          exact above
        · rw [swap_other (by omega) last]
          exact splits.above i (by omega) upper
      · rw [swap_other (by omega) (by omega)]
        exact splits.equal_back i lower upper
    obtain ⟨done, same⟩ := ih (by constructor <;> dsimp only <;> omega) exchanged
    exact ⟨done, moved.trans ((Rearranged.swap (by omega) (by omega)).trans same)⟩

theorem partition_splits (compares : Compares cmp) (some_cells : 1 < n) (cells : ℕ → α) :
    Split cmp a n (partition cmp a n cells) ∧ Rearranged a n cells (partition cmp a n cells).cells := by
  have inside : a ≤ choose cmp a n cells ∧ choose cmp a n cells < a + n := choose_inside some_cells
  have begins : Within a n ⟨a + 1, a + 1, a + (n - 1), a + (n - 1), swap cells a (choose cmp a n cells), false⟩ := by
    constructor <;> dsimp only <;> omega
  have splits : Split cmp a n ⟨a + 1, a + 1, a + (n - 1), a + (n - 1), swap cells a (choose cmp a n cells), false⟩ := by
    constructor <;> dsimp only <;> intro i lower upper
    · have first : i = a := by omega
      rw [first]
      exact compares.self _
    all_goals omega
  obtain ⟨done, same⟩ := partitionLoop_splits begins splits
  exact ⟨done, (Rearranged.swap (by omega) inside).trans same⟩

/-! ## The three parts -/

/-- Smaller elements in front, larger ones at the end, and between them those equal to `pivot`. -/
structure Parted (cmp : α → α → Int) (cells : ℕ → α) (a n below above : ℕ) (pivot : α) : Prop where
  front : ∀ i, a ≤ i → i < a + below → cmp (cells i) pivot < 0
  middle : ∀ i, a + below ≤ i → i < a + n - above → cmp (cells i) pivot = 0
  back : ∀ i, a + n - above ≤ i → i < a + n → 0 < cmp (cells i) pivot

/-- Two neighbouring blocks change places, with no more exchanges than the shorter one has elements. -/
theorem vecswap_blocks {P Q : α → Prop} {x y z r : ℕ} (first : x ≤ y) (second : y ≤ z) (shorter : r = min (y - x) (z - y))
    (front : ∀ i, x ≤ i → i < y → P (cells i)) (back : ∀ i, y ≤ i → i < z → Q (cells i)) :
    (∀ i, x ≤ i → i < x + (z - y) → Q (vecswap x (z - r) r cells i)) ∧
      (∀ i, x + (z - y) ≤ i → i < z → P (vecswap x (z - r) r cells i)) ∧
      ∀ i, i < x ∨ z ≤ i → vecswap x (z - r) r cells i = cells i := by
  obtain ⟨moved, kept⟩ := @vecswap_at α cells x (z - r) r (by omega)
  refine ⟨fun i lower upper => ?_, fun i lower upper => ?_, fun i out => kept i (by omega) (by omega)⟩
  · by_cases inside : i < x + r
    · obtain ⟨k, rfl⟩ := Nat.exists_eq_add_of_le lower
      rw [(moved k (by omega)).1]
      exact back _ (by omega) (by omega)
    · rw [kept i (by omega) (by omega)]
      exact back i (by omega) (by omega)
  · by_cases inside : z - r ≤ i
    · obtain ⟨k, rfl⟩ := Nat.exists_eq_add_of_le inside
      rw [(moved k (by omega)).2]
      exact front _ (by omega) (by omega)
    · rw [kept i (by omega) (by omega)]
      exact front i (by omega) (by omega)

theorem gather_parts (within : Within a n s) (crossed : s.pb = s.pc + 1) (splits : Split cmp a n s) :
    Parted cmp (gather a n s) a n (s.pb - s.pa) (s.pd - s.pc) (s.cells a) ∧ Rearranged a n s.cells (gather a n s) := by
  obtain ⟨front, equal, between, equal_back, back⟩ := within
  obtain ⟨smaller, same, rest⟩ := @vecswap_blocks α s.cells (fun x => cmp x (s.cells a) = 0) (fun x => cmp x (s.cells a) < 0)
    a s.pa s.pb _ front.le equal rfl splits.equal splits.below
  generalize once_is : vecswap a (s.pb - min (s.pa - a) (s.pb - s.pa)) (min (s.pa - a) (s.pb - s.pa)) s.cells = once at smaller same rest
  have first : Rearranged a n s.cells once := by
    rw [← once_is]
    apply vecswap_rearranged <;> omega
  have count : s.pd - s.pc = s.pd + 1 - s.pb := by omega
  have count' : a + n - s.pd - 1 = a + n - (s.pd + 1) := by omega
  obtain ⟨same', larger, rest'⟩ := @vecswap_blocks α once (fun x => 0 < cmp x (s.cells a)) (fun x => cmp x (s.cells a) = 0)
    s.pb (s.pd + 1) (a + n) _ (by omega) (by omega) rfl
    (fun i lower upper => by
      rw [rest i (.inr lower)]
      exact splits.above i (by omega) (by omega))
    (fun i lower upper => by
      rw [rest i (.inr (by omega))]
      exact splits.equal_back i (by omega) upper)
  unfold gather
  dsimp only
  rw [once_is, count, count']
  refine ⟨⟨fun i lower upper => ?_, fun i lower upper => ?_, fun i lower upper => larger i (by omega) upper⟩, ?_⟩
  · rw [rest' i (.inl (by omega))]
    exact smaller i lower upper
  · by_cases inside : i < s.pb
    · rw [rest' i (.inl inside)]
      exact same i lower inside
    · exact same' i (by omega) (by omega)
  · apply first.trans
    apply vecswap_rearranged <;> omega

/-- Sorting the outer parts sorts everything. -/
theorem Parted.sorts {below above : ℕ} {pivot : α} (parted : Parted cmp cells a n below above pivot) (compares : Compares cmp)
    (fits : below + above ≤ n) (front : SortedOn cmp cells a below) (back : SortedOn cmp cells (a + n - above) above) :
    SortedOn cmp cells a n := by
  intro i j lower before upper
  by_cases both : j < a + below
  · exact front i j lower before both
  by_cases both' : a + n - above ≤ i
  · exact back i j both' before (by omega)
  have first : cmp (cells i) pivot ≤ 0 := by
    by_cases small : i < a + below
    · exact (parted.front i lower small).le
    · exact (parted.middle i (by omega) (by omega)).le
  have second : cmp pivot (cells j) ≤ 0 := by
    apply compares.le_of_nonneg
    by_cases large : a + n - above ≤ j
    · exact (parted.back j large upper).le
    · exact (parted.middle j (by omega) (by omega)).ge
  exact compares.chains _ _ _ first second

/-- The parts stay what they are when each of the outer ones is rearranged in itself. -/
theorem Parted.rearranged {below above : ℕ} {pivot : α} {left right : ℕ → α} (parted : Parted cmp cells a n below above pivot)
    (fits : below + above ≤ n) (moved : Rearranged a below cells left) (moved' : Rearranged (a + n - above) above left right) :
    Parted cmp right a n below above pivot := by
  refine ⟨fun i lower upper => ?_, fun i lower upper => ?_, fun i lower upper => ?_⟩
  · rw [moved'.outside (by omega)]
    obtain ⟨j, inside, same⟩ := moved.source ⟨lower, upper⟩
    rw [same]
    exact parted.front j inside.1 inside.2
  · rw [moved'.outside (by omega), moved.outside (by omega)]
    exact parted.middle i lower upper
  · obtain ⟨j, inside, same⟩ := moved'.source (i := i) (by omega)
    rw [same, moved.outside (by omega)]
    exact parted.back j inside.1 (by omega)

theorem Parted.settles {below above : ℕ} {pivot : α} {left right : ℕ → α} (parted : Parted cmp cells a n below above pivot)
    (compares : Compares cmp) (fits : below + above ≤ n)
    (front : SortedOn cmp left a below ∧ Rearranged a below cells left)
    (back : SortedOn cmp right (a + n - above) above ∧ Rearranged (a + n - above) above left right) :
    SortedOn cmp right a n ∧ Rearranged a n cells right := by
  obtain ⟨sorted, moved⟩ := front
  obtain ⟨sorted', moved'⟩ := back
  have still : SortedOn cmp right a below := by
    intro i j lower before upper
    rw [moved'.outside (by omega), moved'.outside (by omega)]
    exact sorted i j lower before upper
  have kept := parted.rearranged fits moved moved'
  exact ⟨kept.sorts compares fits still sorted', (moved.widen le_rfl (by omega)).trans (moved'.widen (by omega) (by omega))⟩

theorem qsort_settles (compares : Compares cmp) (a n : ℕ) (cells : ℕ → α) :
    SortedOn cmp (qsort cmp a n cells) a n ∧ Rearranged a n cells (qsort cmp a n cells) := by
  induction n using Nat.strong_induction_on generalizing a cells with
  | _ n ih =>
    -- a part of fewer than two elements is left as it is
    have part (a n' : ℕ) (cells : ℕ → α) (shorter : n' < n) :
        SortedOn cmp (if 1 < n' then qsort cmp a n' cells else cells) a n' ∧
          Rearranged a n' cells (if 1 < n' then qsort cmp a n' cells else cells) := by
      split
      · exact ih n' shorter a cells
      · exact ⟨sortedOn_small (by omega), .refl a n' cells⟩
    rw [qsort]
    split
    · exact insertionSort_sorts compares
    · rename_i many
      have some_cells : 1 < n := by omega
      obtain ⟨within, crossed⟩ := @partition_within α cmp a n some_cells cells
      obtain ⟨splits, moved⟩ := @partition_splits α cmp a n compares some_cells cells
      generalize partition cmp a n cells = s at within crossed splits moved
      split
      · obtain ⟨done, same⟩ := @insertionSort_sorts α cmp s.cells a n compares
        exact ⟨done, moved.trans same⟩
      · obtain ⟨parted, gathered⟩ := gather_parts within crossed splits
        obtain ⟨front, equal, between, equal_back, back⟩ := within
        have done := parted.settles compares (by omega) (part a (s.pb - s.pa) _ (by omega))
          (part (a + n - (s.pd - s.pc)) (s.pd - s.pc) _ (by omega))
        exact ⟨done.1, (moved.trans gathered).trans done.2⟩

/-- Whatever the number of elements, `qsort` leaves them in order, each two of them compared; in the array they are
those of before, each as often, and outside it nothing has changed. -/
theorem qsort_sorts (cmp : α → α → Int) (compares : Compares cmp) (a n : ℕ) (cells : ℕ → α) :
    SortedOn cmp (qsort cmp a n cells) a n ∧
      ((List.range' a n).map (qsort cmp a n cells)).Perm ((List.range' a n).map cells) ∧
      ∀ i, i < a ∨ a + n ≤ i → qsort cmp a n cells i = cells i := by
  obtain ⟨sorted, moved⟩ := qsort_settles compares a n cells
  exact ⟨sorted, moved.perm, fun i out => moved.outside out⟩

/-- Numbers from the larger to the smaller, as scores are sorted. -/
theorem qsort_sorts_descending : SortedOn (fun x y : Int => y - x) (qsort (fun x y => y - x) 0 100 fun i => (i * 37 % 101 : ℕ)) 0 100 :=
  (qsort_sorts (fun x y : Int => y - x) ⟨fun x y => by omega, fun x y z => by omega⟩ 0 100 fun i => (i * 37 % 101 : ℕ)).1

end Ucore.Qsort
