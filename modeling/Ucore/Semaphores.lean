import Mathlib

/-! Counting semaphores that hand a unit straight to the first waiter. A unit is
free in the value, granted to a process that has not resumed yet, or held by
whoever took it; the laws below follow units and holders through every
operation. -/
namespace Ucore.Semaphores

variable {ι π : Type*}

/-- Where a process stands with the semaphores. -/
inductive Place (ι : Type*) where
  | free
  | waiting (sem : ι)
  | granted (sem : ι)

@[ext] structure State (ι π : Type*) where
  value : ι → ℕ
  queue : ι → List π
  place : π → Place ι

structure Sound (s : State ι π) : Prop where
  queued : ∀ sem p, p ∈ s.queue sem ↔ s.place p = .waiting sem
  distinct : ∀ sem, (s.queue sem).Nodup
  empty : ∀ sem, 0 < s.value sem → s.queue sem = []

def granted (s : State ι π) (sem : ι) : Set π := {p | s.place p = .granted sem}

/-- The units that nobody holds yet. -/
noncomputable def units (s : State ι π) (sem : ι) : ℕ := s.value sem + (granted s sem).ncard

variable [DecidableEq ι] [DecidableEq π] {s t : State ι π} {sem other : ι} {p first : π} {rest : List π}

def post (s : State ι π) (sem : ι) : State ι π :=
  { s with value := Function.update s.value sem (s.value sem + 1) }

/-- The unit of an `up` goes to the head of the queue. -/
def grant (s : State ι π) (sem : ι) (first : π) (rest : List π) : State ι π :=
  { s with
    queue := Function.update s.queue sem rest
    place := Function.update s.place first (.granted sem) }

def up (s : State ι π) (sem : ι) : State ι π :=
  match s.queue sem with
  | [] => post s sem
  | first :: rest => grant s sem first rest

def take (s : State ι π) (sem : ι) : State ι π :=
  { s with value := Function.update s.value sem (s.value sem - 1) }

def wait (s : State ι π) (p : π) (sem : ι) : State ι π :=
  { s with
    queue := Function.update s.queue sem (s.queue sem ++ [p])
    place := Function.update s.place p (.waiting sem) }

def down (s : State ι π) (p : π) (sem : ι) : State ι π :=
  if 0 < s.value sem then take s sem else wait s p sem

def resume (s : State ι π) (p : π) : State ι π :=
  { s with place := Function.update s.place p .free }

/-! ## Every operation keeps the queues -/

omit [DecidableEq π] in
theorem Sound.post (sound : Sound s) (none_waits : s.queue sem = []) : Sound (post s sem) := by
  refine ⟨sound.queued, sound.distinct, fun other positive => ?_⟩
  by_cases same : other = sem
  · exact same ▸ none_waits
  · exact sound.empty other (by simpa [Semaphores.post, same] using positive)

theorem Sound.grant (sound : Sound s) (waits : s.queue sem = first :: rest) :
    Sound (grant s sem first rest) := by
  have distinct : (first :: rest).Nodup := waits ▸ sound.distinct sem
  have waiting : s.place first = .waiting sem := (sound.queued sem first).mp (by simp [waits])
  constructor
  · intro other p
    by_cases same : other = sem <;> by_cases head : p = first
    · subst same head
      simp [Semaphores.grant, (List.nodup_cons.mp distinct).1]
    · subst same
      have := sound.queued other p
      simpa [Semaphores.grant, head, waits] using this
    · subst head
      have := sound.queued other p
      simp only [waiting] at this
      simp [Semaphores.grant, same, this, Ne.symm same]
    · simpa [Semaphores.grant, same, head] using sound.queued other p
  · intro other
    by_cases same : other = sem
    · subst same
      simpa [Semaphores.grant] using (List.nodup_cons.mp distinct).2
    · simpa [Semaphores.grant, same] using sound.distinct other
  · intro other positive
    have empty := sound.empty other positive
    have apart : other ≠ sem := by
      rintro rfl
      simp [waits] at empty
    simpa [Semaphores.grant, apart] using empty

theorem Sound.up (sound : Sound s) (sem : ι) : Sound (up s sem) := by
  cases waits : s.queue sem with
  | nil => simpa only [Semaphores.up, waits] using sound.post waits
  | cons first rest => simpa only [Semaphores.up, waits] using sound.grant waits

omit [DecidableEq π] in
theorem Sound.take (sound : Sound s) (sem : ι) : Sound (take s sem) := by
  refine ⟨sound.queued, sound.distinct, fun other positive => sound.empty other ?_⟩
  by_cases same : other = sem
  · subst same
    have : 0 < s.value other - 1 := by simpa [Semaphores.take] using positive
    omega
  · simpa [Semaphores.take, same] using positive

theorem Sound.wait (sound : Sound s) (free : s.place p = .free) (zero : s.value sem = 0) :
    Sound (wait s p sem) := by
  have outside (other : ι) : p ∉ s.queue other := by
    rw [sound.queued, free]
    nofun
  constructor
  · intro other q
    by_cases same : other = sem <;> by_cases head : q = p
    · simp [Semaphores.wait, same, head]
    · subst same
      simpa [Semaphores.wait, head] using sound.queued other q
    · subst head
      simp [Semaphores.wait, same, outside, Ne.symm same]
    · simpa [Semaphores.wait, same, head] using sound.queued other q
  · intro other
    by_cases same : other = sem
    · subst same
      have apart : ∀ q ∈ s.queue other, q ≠ p := by
        rintro q inQueue rfl
        exact outside other inQueue
      simpa [Semaphores.wait, List.nodup_append, sound.distinct other] using apart
    · simpa [Semaphores.wait, same] using sound.distinct other
  · intro other positive
    have apart : other ≠ sem := by
      rintro rfl
      exact absurd positive (by simp [Semaphores.wait, zero])
    simpa [Semaphores.wait, apart] using sound.empty other positive

theorem Sound.down (sound : Sound s) (free : s.place p = .free) (sem : ι) : Sound (down s p sem) := by
  by_cases positive : 0 < s.value sem
  · simpa only [Semaphores.down, positive, if_true] using sound.take sem
  · simpa only [Semaphores.down, positive, if_false] using sound.wait free (by omega)

omit [DecidableEq ι] in
theorem Sound.resume (sound : Sound s) (woken : s.place p = .granted sem) : Sound (resume s p) := by
  refine ⟨fun other q => ?_, sound.distinct, sound.empty⟩
  by_cases same : q = p
  · subst same
    have := sound.queued other q
    rw [woken] at this
    simp [Semaphores.resume, this]
  · simpa [Semaphores.resume, same] using sound.queued other q

/-! ## Units are conserved -/

theorem granted_grant (s : State ι π) (sem : ι) (first : π) (rest : List π)
    (waiting : s.place first = .waiting sem) (other : ι) :
    granted (grant s sem first rest) other =
      if other = sem then insert first (granted s other) else granted s other := by
  ext p
  by_cases head : p = first <;> by_cases same : other = sem
  · simp [granted, grant, head, same]
  · simp [granted, grant, head, same, waiting, Ne.symm same]
  · simp [granted, grant, head, same]
  · simp [granted, grant, head, same]

theorem granted_wait (s : State ι π) (sem : ι) (free : s.place p = .free) (other : ι) :
    granted (wait s p sem) other = granted s other := by
  ext q
  by_cases same : q = p
  · simp [granted, wait, same, free]
  · simp [granted, wait, same]

omit [DecidableEq ι] in
theorem granted_resume (s : State ι π) (p : π) (other : ι) :
    granted (resume s p) other = granted s other \ {p} := by
  ext q
  by_cases same : q = p
  · simp [granted, resume, same]
  · simp [granted, resume, same]

theorem up_units (sound : Sound s) (finite : (granted s other).Finite) (sem : ι) :
    units (up s sem) other = units s other + (if other = sem then 1 else 0) ∧
      (granted (up s sem) other).Finite := by
  cases waits : s.queue sem with
  | nil =>
    by_cases same : other = sem
    · subst same
      refine ⟨?_, by simpa [up, waits, post, granted] using finite⟩
      simp [up, waits, units, post, granted]
      omega
    · refine ⟨?_, by simpa [up, waits, post, granted] using finite⟩
      simp [up, waits, units, post, granted, same]
  | cons first rest =>
    have waiting : s.place first = .waiting sem := (sound.queued sem first).mp (by simp [waits])
    by_cases same : other = sem
    · subst same
      have fresh : first ∉ granted s other := by simp [granted, waiting]
      simp only [up, waits, units, granted_grant s other first rest waiting, if_true,
        Set.ncard_insert_of_notMem fresh finite]
      exact ⟨by simp only [grant]; omega, finite.insert _⟩
    · simp only [up, waits, units, granted_grant s sem first rest waiting, same, if_false]
      exact ⟨rfl, finite⟩

omit [DecidableEq π] in
theorem take_units (positive : 0 < s.value sem) (other : ι) :
    units (take s sem) other + (if other = sem then 1 else 0) = units s other := by
  by_cases same : other = sem
  · subst same
    simp only [units, take, Function.update_self, if_true]
    simp only [granted]
    omega
  · simp [units, take, granted, same]

theorem wait_units (free : s.place p = .free) (sem other : ι) :
    units (wait s p sem) other = units s other := by
  simp only [units, granted_wait s sem free]
  rfl

theorem resume_units (finite : (granted s sem).Finite) (woken : s.place p = .granted sem) (other : ι) :
    units (resume s p) other + (if other = sem then 1 else 0) = units s other := by
  by_cases same : other = sem
  · subst same
    have here : p ∈ granted s other := woken
    have := Set.ncard_sdiff_singleton_add_one here finite
    simp only [units, granted_resume, if_true]
    simp only [resume]
    omega
  · have gone : p ∉ granted s other := by
      simp only [granted, Set.mem_ofPred_eq, woken, Place.granted.injEq]
      exact Ne.symm same
    simp only [units, granted_resume, Set.sdiff_singleton_eq_self gone, same, if_false]
    rfl

/-! ## One unit among several semaphores -/

/-- The process holds the unit, or has been granted it. -/
def Owns (s : State ι π) (sems : Set ι) (holders : Set π) (p : π) : Prop :=
  p ∈ holders ∨ ∃ sem ∈ sems, s.place p = .granted sem

/-- The semaphores and their holders share a single unit. -/
structure Single (s : State ι π) (sems : Set ι) (holders : Set π) : Prop where
  one : ∀ sem ∈ sems, s.value sem ≤ 1
  alone : ∀ sem ∈ sems, ∀ other ∈ sems, 0 < s.value sem → 0 < s.value other → sem = other
  free : ∀ sem ∈ sems, 0 < s.value sem → ∀ p, ¬ Owns s sems holders p
  owner : ∀ p q, Owns s sems holders p → Owns s sems holders q → p = q
  holding : ∀ p ∈ holders, ∀ sem ∈ sems, s.place p ≠ .waiting sem ∧ s.place p ≠ .granted sem

variable {sems : Set ι} {holders : Set π}

/-- The holder gives its unit back to one of the semaphores. -/
theorem Single.up (single : Single s sems holders) (holds : p ∈ holders) (shared : sem ∈ sems) :
    Single (up s sem) sems (holders \ {p}) := by
  have apart : ∀ other ∈ sems, s.place p ≠ .granted other := fun other inside =>
    (single.holding p holds other inside).2
  have sole (q : π) (owns : Owns s sems holders q) : q = p := single.owner q p owns (.inl holds)
  have zero : ∀ other ∈ sems, s.value other = 0 := fun other inside => by
    by_contra positive
    exact single.free other inside (by omega) p (.inl holds)
  have gone (q : π) : q ∉ holders \ {p} := fun ⟨held, other⟩ => other (sole q (.inl held))
  cases waits : s.queue sem with
  | nil =>
    have none_owns (q : π) : ¬ Owns (Semaphores.up s sem) sems (holders \ {p}) q := by
      rintro (held | ⟨other, inside, woken⟩)
      · exact gone q held
      · simp only [Semaphores.up, waits, post] at woken
        obtain rfl := sole q (.inr ⟨other, inside, woken⟩)
        exact apart other inside woken
    have value (other : ι) (inside : other ∈ sems) :
        (Semaphores.up s sem).value other = if other = sem then 1 else 0 := by
      by_cases same : other = sem
      · subst same
        simp [Semaphores.up, waits, post, zero other inside]
      · simp [Semaphores.up, waits, post, same, zero other inside]
    refine ⟨fun other inside => ?_, fun a inA b inB posA posB => ?_, fun _ _ _ q => none_owns q,
      fun q _ owns => absurd owns (none_owns q), fun q held => absurd held (gone q)⟩
    · rw [value other inside]
      split <;> omega
    · rw [value a inA] at posA
      rw [value b inB] at posB
      split at posA <;> split at posB <;> simp_all
  | cons first rest =>
    have place (q : π) : (Semaphores.up s sem).place q =
        if q = first then .granted sem else s.place q := by
      by_cases head : q = first <;> simp [Semaphores.up, waits, grant, head]
    have value : (Semaphores.up s sem).value = s.value := by simp [Semaphores.up, waits, grant]
    have only_first (q : π) (owns : Owns (Semaphores.up s sem) sems (holders \ {p}) q) : q = first := by
      rcases owns with held | ⟨other, inside, woken⟩
      · exact absurd held (gone q)
      · by_contra later
        rw [place, if_neg later] at woken
        obtain rfl := sole q (.inr ⟨other, inside, woken⟩)
        exact apart other inside woken
    refine ⟨fun other inside => ?_, fun a inA b inB posA => ?_, fun other inside positive => ?_,
      fun q r ownsQ ownsR => (only_first q ownsQ).trans (only_first r ownsR).symm,
      fun q held => absurd held (gone q)⟩
    · rw [value, zero other inside]
      omega
    · rw [value, zero a inA] at posA
      omega
    · rw [value, zero other inside] at positive
      omega

omit [DecidableEq π] in
/-- A unit that a semaphore has is taken. -/
theorem Single.take (single : Single s sems holders) (shared : sem ∈ sems) (positive : 0 < s.value sem)
    (free : s.place p = .free) : Single (take s sem) sems (insert p holders) := by
  have none_owns := single.free sem shared positive
  have zero : ∀ other ∈ sems, (Semaphores.take s sem).value other = 0 := fun other inside => by
    by_cases same : other = sem
    · subst same
      have := single.one other inside
      simp only [Semaphores.take, Function.update_self]
      omega
    · simp only [Semaphores.take, Function.update_of_ne same]
      by_contra more
      exact same (single.alone other inside sem shared (by omega) positive)
  have sole (q : π) (owns : Owns (Semaphores.take s sem) sems (insert p holders) q) : q = p := by
    rcases owns with (rfl | held) | woken
    · rfl
    · exact absurd (.inl held) (none_owns q)
    · exact absurd (.inr woken) (none_owns q)
  refine ⟨fun other inside => by simp [zero other inside], fun a inA _ _ posA => ?_,
    fun other inside more => ?_, fun q r ownsQ ownsR => (sole q ownsQ).trans (sole r ownsR).symm, ?_⟩
  · simp [zero a inA] at posA
  · simp [zero other inside] at more
  · rintro q (rfl | held) other inside
    · simp [Semaphores.take, free]
    · exact single.holding q held other inside

/-- Waiting neither gains nor loses the unit; a holder may wait for something else. -/
theorem Single.wait (single : Single s sems holders) (free : s.place p = .free)
    (lacks : sem ∈ sems → p ∉ holders) : Single (wait s p sem) sems holders := by
  have owns {q : π} (owns : Owns (Semaphores.wait s p sem) sems holders q) : Owns s sems holders q := by
    rcases owns with held | ⟨other, inside, woken⟩
    · exact .inl held
    · have : q ∈ granted (Semaphores.wait s p sem) other := woken
      rw [granted_wait s sem free] at this
      exact .inr ⟨other, inside, this⟩
  refine ⟨single.one, single.alone, fun other inside positive q ownsQ =>
    single.free other inside positive q (owns ownsQ),
    fun q r ownsQ ownsR => single.owner q r (owns ownsQ) (owns ownsR), fun q held other inside => ?_⟩
  by_cases same : q = p
  · have foreign : sem ≠ other := by
      rintro rfl
      exact lacks inside (same ▸ held)
    simp [Semaphores.wait, same, foreign]
  · simpa [Semaphores.wait, same] using single.holding q held other inside

omit [DecidableEq ι] in
/-- A granted unit becomes a held one. -/
theorem Single.resume (single : Single s sems holders) (shared : sem ∈ sems)
    (woken : s.place p = .granted sem) : Single (resume s p) sems (insert p holders) := by
  have owns {q : π} (owns : Owns (Semaphores.resume s p) sems (insert p holders) q) :
      Owns s sems holders q := by
    rcases owns with (rfl | held) | ⟨other, inside, granted⟩
    · exact .inr ⟨sem, shared, woken⟩
    · exact .inl held
    · by_cases same : q = p
      · subst same
        exact .inr ⟨sem, shared, woken⟩
      · exact .inr ⟨other, inside, by simpa [Semaphores.resume, same] using granted⟩
  refine ⟨single.one, single.alone, fun other inside positive q ownsQ =>
    single.free other inside positive q (owns ownsQ),
    fun q r ownsQ ownsR => single.owner q r (owns ownsQ) (owns ownsR), fun q held other inside => ?_⟩
  by_cases same : q = p
  · simp [Semaphores.resume, same]
  · have : q ∈ holders := (Set.mem_insert_iff.mp held).resolve_left same
    simpa [Semaphores.resume, same] using single.holding q this other inside

/-! ## Operations on other semaphores -/

omit [DecidableEq ι] [DecidableEq π] in
/-- Nothing that the single unit depends on changed. -/
theorem Single.apart (single : Single s sems holders) (value : ∀ sem ∈ sems, t.value sem = s.value sem)
    (waiting : ∀ p, ∀ sem ∈ sems, t.place p = .waiting sem → s.place p = .waiting sem)
    (granted : ∀ p, ∀ sem ∈ sems, t.place p = .granted sem → s.place p = .granted sem) :
    Single t sems holders := by
  have owns {q : π} : Owns t sems holders q → Owns s sems holders q := by
    rintro (held | ⟨sem, inside, woken⟩)
    · exact .inl held
    · exact .inr ⟨sem, inside, granted q sem inside woken⟩
  refine ⟨fun sem inside => ?_, fun a inA b inB => ?_, fun sem inside => ?_,
    fun p q ownsP ownsQ => single.owner p q (owns ownsP) (owns ownsQ), fun p held sem inside => ?_⟩
  · rw [value sem inside]
    exact single.one sem inside
  · rw [value a inA, value b inB]
    exact single.alone a inA b inB
  · rw [value sem inside]
    exact fun positive p ownsP => single.free sem inside positive p (owns ownsP)
  · obtain ⟨waits, woken⟩ := single.holding p held sem inside
    exact ⟨fun place => waits (waiting p sem inside place), fun place => woken (granted p sem inside place)⟩

theorem Single.up_other (single : Single s sems holders) (foreign : sem ∉ sems) :
    Single (Semaphores.up s sem) sems holders := by
  have other {inner : ι} (inside : inner ∈ sems) : sem ≠ inner := by
    rintro rfl
    exact foreign inside
  cases waits : s.queue sem with
  | nil =>
    refine single.apart (fun inner inside => ?_) (fun p inner inside place => ?_)
      fun p inner inside place => ?_
    · simp [Semaphores.up, waits, post, (other inside).symm]
    · simpa [Semaphores.up, waits, post] using place
    · simpa [Semaphores.up, waits, post] using place
  | cons first rest =>
    refine single.apart (fun inner inside => by simp [Semaphores.up, waits, grant])
      (fun p inner inside place => ?_) fun p inner inside place => ?_
    · by_cases head : p = first
      · simp [Semaphores.up, waits, grant, head] at place
      · simpa [Semaphores.up, waits, grant, head] using place
    · by_cases head : p = first
      · simp [Semaphores.up, waits, grant, head, other inside] at place
      · simpa [Semaphores.up, waits, grant, head] using place

omit [DecidableEq π] in
theorem Single.take_other (single : Single s sems holders) (foreign : sem ∉ sems) :
    Single (Semaphores.take s sem) sems holders := by
  refine single.apart (fun inner inside => ?_) (fun _ _ _ => id) fun _ _ _ => id
  have other : inner ≠ sem := by
    rintro rfl
    exact foreign inside
  simp [Semaphores.take, other]

omit [DecidableEq ι] in
theorem Single.resume_other (single : Single s sems holders) (p : π) :
    Single (Semaphores.resume s p) sems holders := by
  refine single.apart (fun _ _ => rfl) (fun q inner inside place => ?_) fun q inner inside place => ?_ <;>
    by_cases same : q = p
  · simp [Semaphores.resume, same] at place
  · simpa [Semaphores.resume, same] using place
  · simp [Semaphores.resume, same] at place
  · simpa [Semaphores.resume, same] using place

end Ucore.Semaphores
