import Mathlib

/-! Address-sorted lists of disjoint extents of numbers. A coalesced list has
a gap between any two of its extents, so it is the only coalesced list that
covers what it covers; giving an extent back in its place and joining it with
an adjacent neighbour on either side keeps a list coalesced. -/
namespace Ucore.Extents

/-- The numbers from `start` on, `size` of them. -/
structure Extent where
  start : Nat
  size : Nat

def Extent.stop (extent : Extent) : Nat := extent.start + extent.size

def Extent.Has (extent : Extent) (i : Nat) : Prop := extent.start ≤ i ∧ i < extent.stop

def Covers (extents : List Extent) (i : Nat) : Prop := ∃ extent ∈ extents, extent.Has i

/-- Sorted, nonempty and with a gap between any two extents. -/
structure Coalesced (extents : List Extent) : Prop where
  positive : ∀ extent ∈ extents, 0 < extent.size
  apart : extents.Pairwise fun a b => a.stop < b.start

variable {extents lows highs : List Extent} {extent low high : Extent}

@[simp] theorem covers_nil : ¬ Covers [] i := by simp [Covers]

@[simp] theorem covers_cons : Covers (extent :: extents) i ↔ extent.Has i ∨ Covers extents i := by
  simp [Covers]

@[simp] theorem covers_append : Covers (lows ++ highs) i ↔ Covers lows i ∨ Covers highs i := by
  simp [Covers, or_and_right, exists_or]

theorem coalesced_nil : Coalesced [] := ⟨by simp, List.Pairwise.nil⟩

/-- A list is coalesced when its halves are and a gap lies between them. -/
theorem coalesced_append : Coalesced (lows ++ highs) ↔
    Coalesced lows ∧ Coalesced highs ∧ ∀ a ∈ lows, ∀ b ∈ highs, a.stop < b.start := by
  constructor
  · intro whole
    obtain ⟨left, right, gap⟩ := List.pairwise_append.mp whole.apart
    exact ⟨⟨fun e member => whole.positive e (List.mem_append_left _ member), left⟩,
      ⟨fun e member => whole.positive e (List.mem_append_right _ member), right⟩, gap⟩
  · rintro ⟨left, right, gap⟩
    refine ⟨?_, List.pairwise_append.mpr ⟨left.apart, right.apart, gap⟩⟩
    intro e member
    rcases List.mem_append.mp member with low | high
    · exact left.positive e low
    · exact right.positive e high

theorem coalesced_cons : Coalesced (extent :: extents) ↔
    0 < extent.size ∧ Coalesced extents ∧ ∀ b ∈ extents, extent.stop < b.start := by
  have single : Coalesced [extent] ↔ 0 < extent.size :=
    ⟨fun one => one.positive extent (by simp), fun positive => ⟨by simpa using positive, by simp⟩⟩
  rw [show extent :: extents = [extent] ++ extents from rfl, coalesced_append, single]
  simp

/-- Numbers in a row that are all covered lie in one extent. -/
theorem coalesced_run (whole : Coalesced extents) (positive : 0 < size)
    (covered : ∀ i, start ≤ i → i < start + size → Covers extents i) :
    ∃ extent ∈ extents, extent.start ≤ start ∧ start + size ≤ extent.stop := by
  obtain ⟨extent, member, low, high⟩ := covered start (le_refl _) (by omega)
  refine ⟨extent, member, low, ?_⟩
  by_contra short
  obtain ⟨other, otherMember, otherLow, otherHigh⟩ := covered extent.stop (by omega) (by omega)
  have distinct : extent ≠ other := by
    rintro rfl
    omega
  have apart := whole.apart
  rw [List.pairwise_iff_getElem] at apart
  obtain ⟨i, inRange, rfl⟩ := List.mem_iff_getElem.mp member
  obtain ⟨j, inRange', rfl⟩ := List.mem_iff_getElem.mp otherMember
  rcases Nat.lt_trichotomy i j with before | rfl | after
  · have := apart i j inRange inRange' before
    omega
  · exact distinct rfl
  · have := apart j i inRange' inRange after
    simp only [Extent.stop] at *
    omega

/-- What two lists of a coalesced whole cover is kept apart. -/
theorem coalesced_tail (whole : Coalesced (extent :: extents)) : Coalesced extents :=
  (coalesced_cons.mp whole).2.1

/-- A coalesced list covering exactly one interval is that interval. -/
theorem coalesced_interval (whole : Coalesced extents) (positive : 0 < size)
    (exactly : ∀ i, Covers extents i ↔ start ≤ i ∧ i < start + size) :
    extents = [⟨start, size⟩] := by
  cases extents with
  | nil => exact absurd ((exactly start).mpr ⟨Nat.le_refl _, by omega⟩) covers_nil
  | cons first rest =>
    obtain ⟨own, _, gap⟩ := coalesced_cons.mp whole
    have atStart := (exactly first.start).mp (covers_cons.mpr (Or.inl ⟨Nat.le_refl _, by
      simp only [Extent.stop]; omega⟩))
    have noneAtStop : ¬ Covers (first :: rest) first.stop := by
      rw [covers_cons]
      rintro (inside | ⟨later, member, inside⟩)
      · exact absurd inside.2 (Nat.lt_irrefl _)
      · exact absurd inside.1 (by have := gap later member; omega)
    have beforeStop := (exactly (first.stop - 1)).mp (covers_cons.mpr (Or.inl (by
      simp only [Extent.Has, Extent.stop]; omega)))
    have atStop : first.stop = start + size := by
      have outside := mt (exactly first.stop).mpr noneAtStop
      simp only [Extent.stop] at outside beforeStop ⊢
      omega
    have lowest : first.start = start := by
      rcases Nat.lt_or_ge start first.start with below | above
      · obtain inside | ⟨later, member, inside⟩ :=
          covers_cons.mp ((exactly start).mpr ⟨Nat.le_refl _, by omega⟩)
        · exact absurd inside.1 (by omega)
        · have := gap later member
          simp only [Extent.Has, Extent.stop] at inside this
          omega
      · omega
    have noRest : rest = [] := by
      cases rest with
      | nil => rfl
      | cons later rest =>
        have far := gap later (by simp)
        have bounded := (exactly later.start).mp (covers_cons.mpr (Or.inr (covers_cons.mpr
          (Or.inl ⟨Nat.le_refl _, by
            have := (coalesced_cons.mp (coalesced_tail whole)).1
            simp only [Extent.stop]; omega⟩))))
        omega
    subst noRest
    have sized : first.size = size := by simp only [Extent.stop] at atStop; omega
    cases first
    simp_all

/-- The extents of a coalesced list fit one after another between its bounds. -/
theorem coalesced_total (whole : Coalesced extents) (ordered : start ≤ bound)
    (low : ∀ e ∈ extents, start ≤ e.start) (high : ∀ e ∈ extents, e.stop ≤ bound) :
    start + (extents.map Extent.size).sum ≤ bound := by
  induction extents generalizing start with
  | nil => simpa using ordered
  | cons first rest ih =>
    obtain ⟨_, tail, gap⟩ := coalesced_cons.mp whole
    have ends := high first (by simp)
    have begins := low first (by simp)
    have rested := ih tail ends (fun e member => Nat.le_of_lt (gap e member))
      (fun e member => high e (List.mem_cons_of_mem _ member))
    simp only [List.map_cons, List.sum_cons, Extent.stop] at rested ⊢
    omega

theorem coalesced_length (whole : Coalesced extents) :
    extents.length ≤ (extents.map Extent.size).sum := by
  induction extents with
  | nil => simp
  | cons first rest ih =>
    obtain ⟨own, tail, _⟩ := coalesced_cons.mp whole
    have rested := ih tail
    simp only [List.length_cons, List.map_cons, List.sum_cons]
    omega

/-- A coalesced list splits at any number into what starts below it and the rest. -/
theorem coalesced_split (whole : Coalesced extents) (base : Nat) :
    ∃ lows highs, extents = lows ++ highs ∧ (∀ a ∈ lows, a.start < base) ∧
      ∀ b ∈ highs, base ≤ b.start := by
  induction extents with
  | nil => exact ⟨[], [], rfl, by simp, by simp⟩
  | cons first rest ih =>
    obtain ⟨_, tail, gap⟩ := coalesced_cons.mp whole
    by_cases below : first.start < base
    · obtain ⟨lows, highs, rfl, low, high⟩ := ih tail
      exact ⟨first :: lows, highs, rfl, by simpa [below] using low, high⟩
    · refine ⟨[], first :: rest, rfl, by simp, ?_⟩
      intro b member
      rcases List.mem_cons.mp member with rfl | later
      · omega
      · have := gap b later
        simp only [Extent.stop] at this
        omega

/-- `extent` joined with the first of `highs` when they touch. -/
def joinNext (extent : Extent) : List Extent → List Extent
  | [] => [extent]
  | high :: highs =>
    if extent.stop = high.start then ⟨extent.start, extent.size + high.size⟩ :: highs
    else extent :: high :: highs

/-- `extent` given back between `lows` and `highs`, joined with whichever
neighbour it touches. -/
def giveBack (lows : List Extent) (extent : Extent) (highs : List Extent) : List Extent :=
  match lows.getLast? with
  | none => joinNext extent highs
  | some low =>
    if low.stop = extent.start then
      lows.dropLast ++ joinNext ⟨low.start, low.size + extent.size⟩ highs
    else lows ++ joinNext extent highs

theorem covers_joinNext : Covers (joinNext extent highs) i ↔ extent.Has i ∨ Covers highs i := by
  cases highs with
  | nil => simp [joinNext]
  | cons high highs =>
    simp only [joinNext]
    split
    · rename_i touching
      simp only [covers_cons, Extent.Has, Extent.stop] at touching ⊢
      rw [← or_assoc]
      refine or_congr ?_ Iff.rfl
      omega
    · simp only [covers_cons]

theorem sum_joinNext : ((joinNext extent highs).map Extent.size).sum =
    extent.size + (highs.map Extent.size).sum := by
  cases highs with
  | nil => simp [joinNext]
  | cons high highs =>
    simp only [joinNext]
    split <;> simp [Nat.add_assoc]

/-- Joining to the right keeps a gap after the joined extent. -/
theorem coalesced_joinNext (right : Coalesced highs) (positive : 0 < extent.size)
    (below : ∀ b ∈ highs, extent.stop ≤ b.start) : Coalesced (joinNext extent highs) := by
  cases highs with
  | nil => exact coalesced_cons.mpr ⟨positive, coalesced_nil, by simp⟩
  | cons high highs =>
    obtain ⟨own, rest, gap⟩ := coalesced_cons.mp right
    simp only [joinNext]
    split
    · rename_i touching
      refine coalesced_cons.mpr ⟨by simp only; omega, rest, ?_⟩
      intro b member
      have := gap b member
      simp only [Extent.stop] at touching this ⊢
      omega
    · rename_i apart
      refine coalesced_cons.mpr ⟨positive, right, ?_⟩
      intro b member
      have first := below high (by simp)
      rcases List.mem_cons.mp member with rfl | later
      · omega
      · have := gap b later
        simp only [Extent.stop] at this first ⊢
        omega

/-- Joining to the right does not move the extent's start. -/
theorem joinNext_start (b : Extent) (member : b ∈ joinNext extent highs)
    (below : ∀ b ∈ highs, extent.stop ≤ b.start) : extent.start ≤ b.start := by
  cases highs with
  | nil => simp_all [joinNext]
  | cons high highs =>
    have bound : ∀ b ∈ high :: highs, extent.start ≤ b.start := fun b member =>
      Nat.le_trans (by simp [Extent.stop]) (below b member)
    simp only [joinNext] at member
    split at member
    · rcases List.mem_cons.mp member with rfl | later
      · exact Nat.le_refl _
      · exact bound b (List.mem_cons_of_mem _ later)
    · rcases List.mem_cons.mp member with rfl | later
      · exact Nat.le_refl _
      · exact bound b later

/-- Giving an extent back covers what was covered and the extent. -/
theorem covers_giveBack : Covers (giveBack lows extent highs) i ↔
    extent.Has i ∨ Covers (lows ++ highs) i := by
  rcases List.eq_nil_or_concat lows with rfl | ⟨before, low, rfl⟩
  · simp [giveBack, covers_joinNext]
  · simp only [giveBack, List.concat_eq_append, List.getLast?_append, List.getLast?_singleton,
      Option.some_or, List.dropLast_concat]
    split
    · rename_i touching
      simp only [covers_append, covers_joinNext, covers_cons, covers_nil, or_false]
      have joined : (Extent.mk low.start (low.size + extent.size)).Has i ↔
          low.Has i ∨ extent.Has i := by
        simp only [Extent.Has, Extent.stop] at touching ⊢
        omega
      rw [joined]
      tauto
    · simp only [covers_append, covers_joinNext]
      tauto

theorem sum_giveBack : ((giveBack lows extent highs).map Extent.size).sum =
    ((lows ++ highs).map Extent.size).sum + extent.size := by
  rcases List.eq_nil_or_concat lows with rfl | ⟨before, low, rfl⟩
  · simp [giveBack, sum_joinNext, Nat.add_comm]
  · simp only [giveBack, List.concat_eq_append, List.getLast?_append, List.getLast?_singleton,
      Option.some_or, List.dropLast_concat]
    split <;>
      simp only [List.map_append, List.sum_append, sum_joinNext, List.map_cons, List.map_nil,
        List.sum_cons, List.sum_nil] <;> omega

/-- Giving back an extent that lies between its neighbours leaves the list
coalesced: a neighbour it touches is joined with it. -/
theorem coalesced_giveBack (whole : Coalesced (lows ++ highs)) (positive : 0 < extent.size)
    (above : ∀ a ∈ lows, a.stop ≤ extent.start) (below : ∀ b ∈ highs, extent.stop ≤ b.start) :
    Coalesced (giveBack lows extent highs) := by
  obtain ⟨left, right, gap⟩ := coalesced_append.mp whole
  rcases List.eq_nil_or_concat lows with rfl | ⟨before, low, rfl⟩
  · simpa [giveBack] using coalesced_joinNext right positive below
  · simp only [List.concat_eq_append] at left above gap
    obtain ⟨earlier, last, between⟩ := coalesced_append.mp left
    have lowPositive : 0 < low.size := last.positive low (by simp)
    simp only [giveBack, List.concat_eq_append, List.getLast?_append, List.getLast?_singleton,
      Option.some_or, List.dropLast_concat]
    split
    · rename_i touching
      have beyond : ∀ b ∈ highs, (Extent.mk low.start (low.size + extent.size)).stop ≤ b.start := by
        intro b member
        have := below b member
        simp only [Extent.stop] at touching this ⊢
        omega
      refine coalesced_append.mpr ⟨earlier,
        coalesced_joinNext right (by simp only; omega) beyond, ?_⟩
      intro a member b joined
      have start := joinNext_start b joined beyond
      exact Nat.lt_of_lt_of_le (between a member low (by simp)) start
    · rename_i apart
      refine coalesced_append.mpr ⟨left, coalesced_joinNext right positive below, ?_⟩
      intro a member b joined
      refine Nat.lt_of_lt_of_le ?_ (joinNext_start b joined below)
      have lowBelow := above low (by simp)
      rcases List.mem_append.mp member with inBefore | isLow
      · have := between a inBefore low (by simp)
        simp only [Extent.stop] at this lowBelow ⊢
        omega
      · cases List.mem_singleton.mp isLow
        omega

/-- What is left of an extent after its first `n` numbers are taken. -/
def takeFirst (extent : Extent) (n : Nat) : List Extent :=
  if n < extent.size then [⟨extent.start + n, extent.size - n⟩] else []

theorem covers_takeFirst (enough : n ≤ extent.size) :
    Covers (takeFirst extent n) i ↔ extent.Has i ∧ extent.start + n ≤ i := by
  simp only [takeFirst]
  split
  · simp only [covers_cons, covers_nil, or_false, Extent.Has, Extent.stop]
    omega
  · simp only [covers_nil, Extent.Has, Extent.stop, false_iff]
    omega

/-- Nothing below an extent of a coalesced list reaches it, nothing above starts in it. -/
theorem coalesced_disjoint (whole : Coalesced (lows ++ extent :: highs)) :
    (Covers lows i → i < extent.start) ∧ (Covers highs i → extent.stop ≤ i) := by
  obtain ⟨_, right, gap⟩ := coalesced_append.mp whole
  constructor
  · rintro ⟨low, member, inside⟩
    have := gap low member extent (by simp)
    simp only [Extent.Has] at inside
    omega
  · rintro ⟨high, member, inside⟩
    have := (coalesced_cons.mp right).2.2 high member
    simp only [Extent.Has] at inside
    omega

/-- Taking the first `n` numbers of one extent uncovers exactly those. -/
theorem covers_take (whole : Coalesced (lows ++ extent :: highs)) (enough : n ≤ extent.size) :
    Covers (lows ++ (takeFirst extent n ++ highs)) i ↔
      Covers (lows ++ extent :: highs) i ∧ ¬ (extent.start ≤ i ∧ i < extent.start + n) := by
  obtain ⟨below, above⟩ := coalesced_disjoint (i := i) whole
  simp only [covers_append, covers_cons, covers_takeFirst enough, Extent.Has, Extent.stop] at above ⊢
  constructor
  · rintro (low | ⟨inside, rest⟩ | high)
    · exact ⟨Or.inl low, by have := below low; omega⟩
    · exact ⟨Or.inr (Or.inl inside), by omega⟩
    · exact ⟨Or.inr (Or.inr high), by have := above high; omega⟩
  · rintro ⟨low | inside | high, kept⟩
    · exact Or.inl low
    · exact Or.inr (Or.inl ⟨inside, by omega⟩)
    · exact Or.inr (Or.inr high)

/-- Shrinking one extent from its start leaves the list coalesced. -/
theorem coalesced_takeFirst (whole : Coalesced (lows ++ extent :: highs)) :
    Coalesced (lows ++ (takeFirst extent n ++ highs)) := by
  obtain ⟨left, right, gap⟩ := coalesced_append.mp whole
  obtain ⟨_, rest, beyond⟩ := coalesced_cons.mp right
  simp only [takeFirst]
  split
  · refine coalesced_append.mpr ⟨left, coalesced_cons.mpr ⟨by simp only; omega, rest, ?_⟩, ?_⟩
    · intro b member
      have := beyond b member
      simp only [Extent.stop] at this ⊢
      omega
    · intro a member b shrunk
      rcases List.mem_cons.mp shrunk with rfl | later
      · exact Nat.lt_of_lt_of_le (gap a member extent (by simp)) (by simp)
      · exact gap a member b (List.mem_cons_of_mem _ later)
  · exact coalesced_append.mpr ⟨left, rest, fun a member b later =>
      gap a member b (List.mem_cons_of_mem _ later)⟩

end Ucore.Extents
