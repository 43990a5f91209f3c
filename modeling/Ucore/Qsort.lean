import Mathlib

/-! `qsort` of `libs/qsort.c`, a quicksort with three parts that goes over to insertion
on few elements and where a partition has moved nothing. A cell is an element of
`es` bytes and a position its offset divided by `es`; pointers run up to the end of
the array, never in front of it. -/
namespace Ucore.Qsort

variable {α : Type*}

def swap (cells : ℕ → α) (i j : ℕ) : ℕ → α := cells ∘ Equiv.swap i j

/-- `swapfunc` on `r` elements, cell by cell. -/
def vecswap (i j : ℕ) : ℕ → (ℕ → α) → ℕ → α
  | 0, cells => cells
  | r + 1, cells => vecswap (i + 1) (j + 1) r (swap cells i j)

variable (cmp : α → α → Int)

def med3 (cells : ℕ → α) (a b c : ℕ) : ℕ :=
  if cmp (cells a) (cells b) < 0 then
    if cmp (cells b) (cells c) < 0 then b else if cmp (cells a) (cells c) < 0 then c else a
  else if 0 < cmp (cells b) (cells c) then b else if cmp (cells a) (cells c) < 0 then a else c

/-! ## Insertion -/

/-- The inner loop, with `pl` at `a + k`. -/
def sink (a : ℕ) : ℕ → (ℕ → α) → ℕ → α
  | 0, cells => cells
  | k + 1, cells =>
    if 0 < cmp (cells (a + k)) (cells (a + k + 1)) then sink a k (swap cells (a + k + 1) (a + k)) else cells

/-- The outer loop, with `pm` at `a + k` and `more` elements to go. -/
def insertionLoop (a k : ℕ) : ℕ → (ℕ → α) → ℕ → α
  | 0, cells => cells
  | more + 1, cells => insertionLoop a (k + 1) more (sink cmp a k cells)

def insertionSort (a n : ℕ) (cells : ℕ → α) : ℕ → α := insertionLoop cmp a 1 (n - 1) cells

/-! ## Partition -/

/-- The four pointers of the loop, the cells and `swap_cnt`. -/
structure Scan (α : Type*) where
  pa : ℕ
  pb : ℕ
  pc : ℕ
  pd : ℕ
  cells : ℕ → α
  swapCnt : Bool

/-- The first inner loop. -/
def scanUp (a : ℕ) (s : Scan α) : Scan α :=
  if s.pb ≤ s.pc then
    if 0 < cmp (s.cells s.pb) (s.cells a) then s
    else if cmp (s.cells s.pb) (s.cells a) = 0 then
      scanUp a { s with pa := s.pa + 1, pb := s.pb + 1, cells := swap s.cells s.pa s.pb, swapCnt := true }
    else scanUp a { s with pb := s.pb + 1 }
  else s
termination_by s.pc + 1 - s.pb

/-- The second inner loop. Since `pb` is behind `a`, `pc` is never the first position here. -/
def scanDown (a : ℕ) (s : Scan α) : Scan α :=
  if s.pb ≤ s.pc ∧ 0 < s.pc then
    if cmp (s.cells s.pc) (s.cells a) < 0 then s
    else if cmp (s.cells s.pc) (s.cells a) = 0 then
      scanDown a { s with pc := s.pc - 1, pd := s.pd - 1, cells := swap s.cells s.pc s.pd, swapCnt := true }
    else scanDown a { s with pc := s.pc - 1 }
  else s
termination_by s.pc

theorem scanUp_goes (a : ℕ) (s : Scan α) : s.pb ≤ (scanUp cmp a s).pb ∧ (scanUp cmp a s).pc = s.pc := by
  fun_induction scanUp cmp a s with
  | case1 => exact ⟨le_rfl, rfl⟩
  | case2 s _ _ _ ih => exact ⟨Nat.le_of_succ_le ih.1, ih.2⟩
  | case3 s _ _ _ ih => exact ⟨Nat.le_of_succ_le ih.1, ih.2⟩
  | case4 => exact ⟨le_rfl, rfl⟩

theorem scanDown_goes (a : ℕ) (s : Scan α) : (scanDown cmp a s).pb = s.pb ∧ (scanDown cmp a s).pc ≤ s.pc := by
  fun_induction scanDown cmp a s with
  | case1 => exact ⟨rfl, le_rfl⟩
  | case2 s _ _ _ ih => exact ⟨ih.1, ih.2.trans (Nat.sub_le _ _)⟩
  | case3 s _ _ _ ih => exact ⟨ih.1, ih.2.trans (Nat.sub_le _ _)⟩
  | case4 => exact ⟨rfl, le_rfl⟩

/-- Both inner loops. -/
def scan (a : ℕ) (s : Scan α) : Scan α := scanDown cmp a (scanUp cmp a s)

theorem scan_goes (a : ℕ) (s : Scan α) : s.pb ≤ (scan cmp a s).pb ∧ (scan cmp a s).pc ≤ s.pc := by
  have up := scanUp_goes cmp a s
  have down := scanDown_goes cmp a (scanUp cmp a s)
  unfold scan
  omega

/-- The loop around them, up to its `break`. -/
def partitionLoop (a : ℕ) (s : Scan α) : Scan α :=
  if (scan cmp a s).pc < (scan cmp a s).pb then scan cmp a s
  else partitionLoop a { scan cmp a s with
    pb := (scan cmp a s).pb + 1
    pc := (scan cmp a s).pc - 1
    cells := swap (scan cmp a s).cells (scan cmp a s).pb (scan cmp a s).pc
    swapCnt := true }
termination_by s.pc + 1 - s.pb
decreasing_by
  have goes := scan_goes cmp a s
  omega

/-- The position of the element that the others are compared with. -/
def choose (a n : ℕ) (cells : ℕ → α) : ℕ :=
  let pm := a + n / 2
  if 7 < n then
    let pn := a + (n - 1)
    if 40 < n then
      let d := n / 8
      med3 cmp cells (med3 cmp cells a (a + d) (a + 2 * d)) (med3 cmp cells (pm - d) pm (pm + d))
        (med3 cmp cells (pn - 2 * d) (pn - d) pn)
    else med3 cmp cells a pm pn
  else pm

def partition (a n : ℕ) (cells : ℕ → α) : Scan α :=
  partitionLoop cmp a ⟨a + 1, a + 1, a + (n - 1), a + (n - 1), swap cells a (choose cmp a n cells), false⟩

/-! ## Bounds

The pointers stay in the array, and both parts that are left to sort are shorter than it. -/

structure Within (a n : ℕ) (s : Scan α) : Prop where
  front : a < s.pa
  equal : s.pa ≤ s.pb
  between : s.pb ≤ s.pc + 1
  equal_back : s.pc ≤ s.pd
  back : s.pd < a + n

/-- `pb` has stopped at an element that is above the first. -/
def Stopped (a : ℕ) (s : Scan α) : Prop := s.pb ≤ s.pc → 0 < cmp (s.cells s.pb) (s.cells a)

variable {a n : ℕ} {s : Scan α}

theorem swap_other {cells : ℕ → α} {i j k : ℕ} (apart : k ≠ i) (apart' : k ≠ j) : swap cells i j k = cells k :=
  congrArg cells (Equiv.swap_apply_of_ne_of_ne apart apart')

theorem scanUp_within (within : Within a n s) : Within a n (scanUp cmp a s) ∧ Stopped cmp a (scanUp cmp a s) := by
  obtain ⟨front, equal, between, equal_back, back⟩ := within
  fun_induction scanUp cmp a s with
  | case1 s inside above => exact ⟨⟨front, equal, between, equal_back, back⟩, fun _ => above⟩
  | case2 s inside _ _ ih => apply ih <;> dsimp only <;> omega
  | case3 s inside _ _ ih => apply ih <;> dsimp only <;> omega
  | case4 s outside => exact ⟨⟨front, equal, between, equal_back, back⟩, fun inside => absurd inside outside⟩

/-- Where neither has gone past the other, each has stopped at an element for the other's side. -/
def Facing (a : ℕ) (s : Scan α) : Prop :=
  s.pb ≤ s.pc → 0 < cmp (s.cells s.pb) (s.cells a) ∧ cmp (s.cells s.pc) (s.cells a) < 0

theorem scanDown_within (within : Within a n s) (stopped : Stopped cmp a s) :
    Within a n (scanDown cmp a s) ∧ Facing cmp a (scanDown cmp a s) := by
  obtain ⟨front, equal, between, equal_back, back⟩ := within
  fun_induction scanDown cmp a s with
  | case1 s inside below => exact ⟨⟨front, equal, between, equal_back, back⟩, fun still => ⟨stopped still, below⟩⟩
  | case2 s inside _ zero ih =>
    have apart : s.pb ≠ s.pc := by
      intro same
      have above := stopped inside.1
      rw [same] at above
      omega
    apply ih
    · intro still
      dsimp only at still ⊢
      rw [swap_other, swap_other]
      · exact stopped inside.1
      all_goals omega
    all_goals dsimp only; omega
  | case3 s inside _ _ ih =>
    apply ih
    · exact fun still => stopped inside.1
    all_goals dsimp only; omega
  | case4 s outside => exact ⟨⟨front, equal, between, equal_back, back⟩, fun still => by omega⟩

theorem scan_within (within : Within a n s) : Within a n (scan cmp a s) ∧ Facing cmp a (scan cmp a s) := by
  obtain ⟨within, stopped⟩ := scanUp_within cmp within
  exact scanDown_within cmp within stopped

theorem Facing.apart (facing : Facing cmp a s) (uncrossed : s.pb ≤ s.pc) : s.pb ≠ s.pc := by
  intro same
  have signs := facing uncrossed
  rw [same] at signs
  omega

theorem partitionLoop_within (within : Within a n s) :
    Within a n (partitionLoop cmp a s) ∧ (partitionLoop cmp a s).pb = (partitionLoop cmp a s).pc + 1 := by
  fun_induction partitionLoop cmp a s with
  | case1 s crossed =>
    obtain ⟨within, -⟩ := scan_within cmp within
    exact ⟨within, Nat.le_antisymm within.between crossed⟩
  | case2 s uncrossed ih =>
    obtain ⟨⟨front, equal, between, equal_back, back⟩, facing⟩ := scan_within cmp within
    have apart := facing.apart cmp (by omega)
    apply ih
    constructor <;> dsimp only <;> omega

/-- The equal elements go from both ends to the middle. -/
def gather (a n : ℕ) (s : Scan α) : ℕ → α :=
  let r := min (s.pa - a) (s.pb - s.pa)
  let cells := vecswap a (s.pb - r) r s.cells
  let r := min (s.pd - s.pc) (a + n - s.pd - 1)
  vecswap s.pb (a + n - r) r cells

theorem partition_within (some_cells : 1 < n) (cells : ℕ → α) :
    Within a n (partition cmp a n cells) ∧ (partition cmp a n cells).pb = (partition cmp a n cells).pc + 1 := by
  apply partitionLoop_within
  constructor <;> dsimp only <;> omega

def qsort (a n : ℕ) (cells : ℕ → α) : ℕ → α :=
  if n < 7 then insertionSort cmp a n cells
  else if !(partition cmp a n cells).swapCnt then insertionSort cmp a n (partition cmp a n cells).cells
  else
    let below := (partition cmp a n cells).pb - (partition cmp a n cells).pa
    let above := (partition cmp a n cells).pd - (partition cmp a n cells).pc
    let gathered := gather a n (partition cmp a n cells)
    let left := if 1 < below then qsort a below gathered else gathered
    if 1 < above then qsort (a + n - above) above left else left
termination_by n
decreasing_by
  all_goals
    obtain ⟨⟨front, equal, -, equal_back, back⟩, crossed⟩ := @partition_within α cmp a n (by omega) cells
    omega

end Ucore.Qsort
