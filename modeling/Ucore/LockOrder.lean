import Ucore.Runs
import Ucore.Semaphores

/-! Code seen through the semaphores that it takes and gives back, and processes that run such
code in any order. Where all code takes the semaphores in the order of a rank, no processes
wait for one another in a circle (`Processes.Ranked.orderly`), and somebody can always go on
(`Processes.Ranked.goes`). -/
namespace Ucore.LockOrder
open Semaphores
open scoped Computability

variable {κ π : Type}

inductive Act (κ : Type) where
  | down (sem : κ)
  | up (sem : κ)

/-- A word for every way through a piece of code. What the ways depend on is left open. -/
abbrev Code (κ : Type) := Language (Act κ)

/-- The code between `down` and `up`. -/
def locked (sem : κ) (body : Code κ) : Code κ := {[.down sem]} * body * {[.up sem]}

/-! ## Semaphores taken in the order of a rank -/

section
variable [DecidableEq κ] (rank : κ → ℕ)

/-- From the semaphores held on, the word takes each above all that are held then, gives back
only what is held, and in the end everything. -/
def Follows : List κ → List (Act κ) → Prop
  | held, [] => held = []
  | held, .down sem :: rest => (∀ other ∈ held, rank other < rank sem) ∧ Follows (sem :: held) rest
  | held, .up sem :: rest => sem ∈ held ∧ Follows (held.erase sem) rest

/-- The code takes semaphores of this rank and above only, in order, and gives them back. -/
def Above (bound : ℕ) (code : Code κ) : Prop :=
  ∀ word ∈ code, ∀ held rest, (∀ other ∈ held, rank other < bound) → Follows rank held rest → Follows rank held (word ++ rest)

end

section
variable [DecidableEq κ] {rank : κ → ℕ} {bound : ℕ} {first second code : Code κ}

theorem Above.one : Above rank bound (1 : Code κ) := by
  intro word inside held rest _ follows
  cases (Language.mem_one word).mp inside
  exact follows

theorem Above.mul (above : Above rank bound first) (above' : Above rank bound second) : Above rank bound (first * second) := by
  intro word inside held rest below follows
  obtain ⟨start, inFirst, finish, inSecond, rfl⟩ := Language.mem_mul.mp inside
  rw [List.append_assoc]
  exact above start inFirst held _ below (above' finish inSecond held rest below follows)

theorem Above.add (above : Above rank bound first) (above' : Above rank bound second) : Above rank bound (first + second) := by
  rintro word (inFirst | inSecond)
  · exact above word inFirst
  · exact above' word inSecond

/-- Code that may be left out. -/
theorem Above.early (above : Above rank bound code) : Above rank bound (1 + code) := .add .one above

theorem Above.iSup {ι : Type} {codes : ι → Code κ} (above : ∀ i, Above rank bound (codes i)) : Above rank bound (⨆ i, codes i) := by
  intro word inside
  obtain ⟨i, inCode⟩ := Language.mem_iSup.mp inside
  exact above i word inCode

theorem Above.kstar (above : Above rank bound code) : Above rank bound code∗ := by
  intro word inside held rest below follows
  obtain ⟨words, rfl, inCode⟩ := Language.mem_kstar.mp inside
  clear inside
  induction words with
  | nil => exact follows
  | cons first words ih =>
    rw [List.flatten_cons, List.append_assoc]
    apply above first (inCode first List.mem_cons_self) held _ below
    exact ih fun later inRest => inCode later (List.mem_cons_of_mem _ inRest)

theorem Above.locked {sem : κ} {body : Code κ} (low : bound ≤ rank sem) (above : Above rank (rank sem + 1) body) :
    Above rank bound (locked sem body) := by
  intro word inside held rest below follows
  obtain ⟨start, inStart, finish, rfl, rfl⟩ := Language.mem_mul.mp inside
  obtain ⟨_, rfl, middle, inBody, rfl⟩ := Language.mem_mul.mp inStart
  have highest : ∀ other ∈ sem :: held, rank other < rank sem + 1 := by
    rintro other (_ | ⟨_, among⟩)
    · exact Nat.lt_succ_self _
    · exact (below other among).trans_le (low.trans (Nat.le_succ _))
  have given_back : Follows rank (sem :: held) (.up sem :: rest) := by
    refine ⟨List.mem_cons_self, ?_⟩
    rwa [List.erase_cons_head]
  have follows_middle := above middle inBody (sem :: held) _ highest given_back
  rw [List.append_assoc, List.append_assoc]
  exact ⟨fun other among => (below other among).trans_le low, follows_middle⟩

end

/-! ## Processes -/

structure Processes (π κ : Type) where
  sems : State κ π
  /-- What each process has taken and not given back, the last first. -/
  held : π → List κ
  /-- What is left of the call that a process is in. -/
  todo : π → List (Act κ)

inductive Event (π κ : Type) where
  | call (p : π) (word : List (Act κ))
  | go (p : π)

section
variable [DecidableEq π] [DecidableEq κ]

namespace Processes

/-- The process has the semaphore and goes on. -/
def enters (processes : Processes π κ) (p : π) (sem : κ) (rest : List (Act κ)) (sems : State κ π) : Processes π κ where
  sems := sems
  held := Function.update processes.held p (sem :: processes.held p)
  todo := Function.update processes.todo p rest

def leaves (processes : Processes π κ) (p : π) (sem : κ) (rest : List (Act κ)) : Processes π κ where
  sems := up processes.sems sem
  held := Function.update processes.held p ((processes.held p).erase sem)
  todo := Function.update processes.todo p rest

end Processes

def step (processes : Processes π κ) : Event π κ → Option (Processes π κ)
  | .call p word => some { processes with todo := Function.update processes.todo p word }
  | .go p =>
    match processes.sems.place p, processes.todo p with
    | .free, .down sem :: rest =>
      if 0 < processes.sems.value sem then some (processes.enters p sem rest (take processes.sems sem))
      else some { processes with sems := wait processes.sems p sem }
    | .granted sem, .down _ :: rest => some (processes.enters p sem rest (resume processes.sems p))
    | .free, .up sem :: rest => some (processes.leaves p sem rest)
    | _, _ => none

/-- A process outside of all calls makes one, and a process inside that does not wait goes on. -/
def Possible (calls : Code κ) (processes : Processes π κ) : Event π κ → Prop
  | .call p word => processes.todo p = [] ∧ word ∈ calls
  | .go p => processes.todo p ≠ [] ∧ ∀ sem, processes.sems.place p ≠ .waiting sem

/-- Nobody is in a call, and every semaphore is there to be taken. -/
def boot (π κ : Type) : Processes π κ := ⟨⟨fun _ => 1, fun _ => [], fun _ => .free⟩, fun _ => [], fun _ => []⟩

end

namespace Processes

/-- The process has the semaphore, or will have it as soon as it goes on. -/
def Has (processes : Processes π κ) (p : π) (sem : κ) : Prop := sem ∈ processes.held p ∨ processes.sems.place p = .granted sem

/-- The process is blocked in `down` on a semaphore that the other has. -/
def WaitsFor (processes : Processes π κ) (p q : π) : Prop := ∃ sem, processes.sems.place p = .waiting sem ∧ processes.Has q sem

structure Orderly (rank : κ → ℕ) (processes : Processes π κ) : Prop where
  /-- A process at a `down` has only semaphores of lower ranks. -/
  ordered : ∀ p sem rest, processes.todo p = .down sem :: rest → ∀ other ∈ processes.held p, rank other < rank sem
  fresh : ∀ p sem rest, processes.todo p = .down sem :: rest → sem ∉ processes.held p
  noCycle : ∀ p, ¬ Relation.TransGen processes.WaitsFor p p

variable [DecidableEq κ] {rank : κ → ℕ} {processes : Processes π κ}

/-- A process stands at the `down` that it waits in. -/
def Calls (processes : Processes π κ) (p : π) : Prop :=
  ∀ sem, processes.sems.place p = .waiting sem ∨ processes.sems.place p = .granted sem → ∃ rest, processes.todo p = .down sem :: rest

structure Ranked (rank : κ → ℕ) (processes : Processes π κ) : Prop where
  sound : Sound processes.sems
  calls : ∀ p, processes.Calls p
  follows : ∀ p, Follows rank (processes.held p) (processes.todo p)
  /-- A semaphore that cannot be taken is with a process. -/
  kept : ∀ sem, processes.sems.value sem = 0 → ∃ p, processes.Has p sem

theorem Ranked.ordered (ranked : Ranked rank processes) (calls : processes.todo p = .down sem :: rest) :
    ∀ other ∈ processes.held p, rank other < rank sem := by
  have follows := ranked.follows p
  rw [calls] at follows
  exact follows.1

/-- Along a chain of waiting processes the ranks that they wait for go up. -/
theorem Ranked.rises (ranked : Ranked rank processes) (chain : Relation.TransGen processes.WaitsFor p q)
    (waits : processes.sems.place q = .waiting last) : ∃ first, processes.sems.place p = .waiting first ∧ rank first < rank last := by
  have single {p q : π} {last : κ} (waitsFor : processes.WaitsFor p q) (waits : processes.sems.place q = .waiting last) :
      ∃ first, processes.sems.place p = .waiting first ∧ rank first < rank last := by
    obtain ⟨first, blocked, held | granted⟩ := waitsFor
    · obtain ⟨rest, calls⟩ := ranked.calls q last (.inl waits)
      exact ⟨first, blocked, ranked.ordered calls first held⟩
    · cases waits.symm.trans granted
  induction chain generalizing last with
  | single waitsFor => exact single waitsFor waits
  | tail _ waitsFor ih =>
    obtain ⟨between, blocked, lower⟩ := single waitsFor waits
    obtain ⟨first, blocked', lowest⟩ := ih blocked
    exact ⟨first, blocked', lowest.trans lower⟩

theorem Ranked.orderly (ranked : Ranked rank processes) : Orderly rank processes := by
  constructor
  · exact fun p sem rest calls => ranked.ordered calls
  · exact fun p sem rest calls among => lt_irrefl _ (ranked.ordered calls sem among)
  · intro p cycle
    obtain ⟨last, waits⟩ : ∃ sem, processes.sems.place p = .waiting sem := by
      obtain ⟨q, ⟨sem, waits, -⟩, -⟩ := Relation.TransGen.head'_iff.mp cycle
      exact ⟨sem, waits⟩
    obtain ⟨first, waits', lower⟩ := ranked.rises cycle waits
    cases waits.symm.trans waits'
    exact lt_irrefl _ lower

/-! ## Steps -/

variable [DecidableEq π]

omit [DecidableEq π] in
theorem Ranked.free (ranked : Ranked rank processes) (idle : processes.todo p = []) : processes.sems.place p = .free := by
  cases place : processes.sems.place p with
  | free => rfl
  | waiting sem =>
    obtain ⟨rest, calls⟩ := ranked.calls p sem (.inl place)
    cases idle.symm.trans calls
  | granted sem =>
    obtain ⟨rest, calls⟩ := ranked.calls p sem (.inr place)
    cases idle.symm.trans calls

/-- A process outside of all calls makes one. -/
theorem Ranked.call (ranked : Ranked rank processes) (idle : processes.todo p = []) (follows : Follows rank [] word) :
    Ranked rank { processes with todo := Function.update processes.todo p word } := by
  have empty : processes.held p = [] := by
    have follows := ranked.follows p
    rwa [idle] at follows
  refine ⟨ranked.sound, fun q sem blocked => ?_, fun q => ?_, ranked.kept⟩
  · have apart : q ≠ p := by
      rintro rfl
      have free := ranked.free idle
      rcases blocked with waits | granted
      · cases free.symm.trans waits
      · cases free.symm.trans granted
    obtain ⟨rest, calls⟩ := ranked.calls q sem blocked
    exact ⟨rest, (Function.update_of_ne apart _ _).trans calls⟩
  · by_cases same : q = p
    · subst same
      simpa only [Function.update_self, empty] using follows
    · simpa only [Function.update_of_ne same] using ranked.follows q

/-- A process has got the semaphore of its `down`. -/
theorem Ranked.enters {sems : State κ π} (ranked : Ranked rank processes) (calls : processes.todo p = .down sem :: rest) (sound : Sound sems)
    (place : ∀ q, sems.place q = if q = p then .free else processes.sems.place q)
    (value : ∀ other, other ≠ sem → sems.value other = 0 → processes.sems.value other = 0)
    (only : ∀ other, processes.sems.place p = .granted other → other = sem) : Ranked rank (processes.enters p sem rest sems) := by
  have todo_of_ne {q : π} (apart : q ≠ p) : (processes.enters p sem rest sems).todo q = processes.todo q := Function.update_of_ne apart _ _
  have held_of_ne {q : π} (apart : q ≠ p) : (processes.enters p sem rest sems).held q = processes.held q := Function.update_of_ne apart _ _
  have held_self : (processes.enters p sem rest sems).held p = sem :: processes.held p := Function.update_self p _ _
  have todo_self : (processes.enters p sem rest sems).todo p = rest := Function.update_self p _ _
  refine ⟨sound, fun q other blocked => ?_, fun q => ?_, fun other zero => ?_⟩
  · have apart : q ≠ p := by
      rintro rfl
      simp only [Processes.enters, place, if_true, reduceCtorEq, or_self] at blocked
    simp only [Processes.enters, place, apart, if_false] at blocked
    obtain ⟨rest', calls'⟩ := ranked.calls q other blocked
    exact ⟨rest', (todo_of_ne apart).trans calls'⟩
  · by_cases same : q = p
    · subst same
      have follows := ranked.follows q
      rw [calls] at follows
      rw [held_self, todo_self]
      exact follows.2
    · rw [held_of_ne same, todo_of_ne same]
      exact ranked.follows q
  · by_cases same : other = sem
    · subst same
      exact ⟨p, .inl (by rw [held_self]; exact List.mem_cons_self)⟩
    · obtain ⟨q, has⟩ := ranked.kept other (value other same zero)
      refine ⟨q, ?_⟩
      by_cases here : q = p
      · subst here
        rcases has with held | granted
        · exact .inl (by rw [held_self]; exact List.mem_cons_of_mem _ held)
        · exact absurd (only other granted) same
      · rcases has with held | granted
        · exact .inl (by rwa [held_of_ne here])
        · exact .inr ((place q).trans (by rw [if_neg here, granted]))

/-- A process blocks in `down`. -/
theorem Ranked.waits (ranked : Ranked rank processes) (calls : processes.todo p = .down sem :: rest)
    (free : processes.sems.place p = .free) (zero : processes.sems.value sem = 0) :
    Ranked rank { processes with sems := wait processes.sems p sem } := by
  have place_of_ne {q : π} (apart : q ≠ p) : (wait processes.sems p sem).place q = processes.sems.place q :=
    Function.update_of_ne apart _ _
  have place_self : (wait processes.sems p sem).place p = .waiting sem := Function.update_self p _ _
  refine ⟨ranked.sound.wait free zero, fun q other blocked => ?_, ranked.follows, fun other zero => ?_⟩
  · by_cases same : q = p
    · subst same
      simp only [place_self, Place.waiting.injEq, reduceCtorEq, or_false] at blocked
      subst blocked
      exact ⟨rest, calls⟩
    · simp only [place_of_ne same] at blocked
      exact ranked.calls q other blocked
  · obtain ⟨q, held | granted⟩ := ranked.kept other zero
    · exact ⟨q, .inl held⟩
    · refine ⟨q, .inr ((place_of_ne ?_).trans granted)⟩
      rintro rfl
      cases free.symm.trans granted

/-- A process gives a semaphore back, to the first that waits for it. -/
theorem Ranked.leaves (ranked : Ranked rank processes) (calls : processes.todo p = .up sem :: rest)
    (free : processes.sems.place p = .free) : Ranked rank (processes.leaves p sem rest) := by
  have follows := ranked.follows p
  rw [calls] at follows
  have todo_of_ne {q : π} (apart : q ≠ p) : (processes.leaves p sem rest).todo q = processes.todo q := Function.update_of_ne apart _ _
  have held_of_ne {q : π} (apart : q ≠ p) : (processes.leaves p sem rest).held q = processes.held q := Function.update_of_ne apart _ _
  have held_self : (processes.leaves p sem rest).held p = (processes.held p).erase sem := Function.update_self p _ _
  have todo_self : (processes.leaves p sem rest).todo p = rest := Function.update_self p _ _
  have followed (q : π) : Follows rank ((processes.leaves p sem rest).held q) ((processes.leaves p sem rest).todo q) := by
    by_cases same : q = p
    · subst same
      rw [held_self, todo_self]
      exact follows.2
    · rw [held_of_ne same, todo_of_ne same]
      exact ranked.follows q
  -- Whoever has another semaphore still has it.
  have still {q : π} {other : κ} (apart : other ≠ sem) (has : processes.Has q other)
      (places : ∀ q, (up processes.sems sem).place q = .granted other ∨ processes.sems.place q ≠ .granted other) :
      (processes.leaves p sem rest).Has q other := by
    rcases has with held | granted
    · left
      by_cases same : q = p
      · subst same
        rw [held_self]
        exact (List.mem_erase_of_ne apart).mpr held
      · rwa [held_of_ne same]
    · exact .inr ((places q).resolve_right fun differs => differs granted)
  cases waits : processes.sems.queue sem with
  | nil =>
    have ups : up processes.sems sem = post processes.sems sem := by rw [up, waits]
    refine ⟨ranked.sound.up sem, fun q other blocked => ?_, followed, fun other zero => ?_⟩
    · simp only [Processes.leaves, ups, post] at blocked
      have apart : q ≠ p := by
        rintro rfl
        simp only [free, reduceCtorEq, or_self] at blocked
      obtain ⟨rest', calls'⟩ := ranked.calls q other blocked
      exact ⟨rest', (todo_of_ne apart).trans calls'⟩
    · have apart : other ≠ sem := by
        rintro rfl
        simp [Processes.leaves, ups, post] at zero
      simp only [Processes.leaves, ups, post, Function.update_of_ne apart] at zero
      obtain ⟨q, has⟩ := ranked.kept other zero
      refine ⟨q, still apart has fun q => ?_⟩
      simp only [ups, post]
      exact em _
  | cons first others =>
    have ups : up processes.sems sem = grant processes.sems sem first others := by rw [up, waits]
    have waiting : processes.sems.place first = .waiting sem := (ranked.sound.queued sem first).mp (by rw [waits]; exact List.mem_cons_self)
    have place_first : (up processes.sems sem).place first = .granted sem := by
      rw [ups]
      exact Function.update_self first _ _
    have place_of_ne {q : π} (apart : q ≠ first) : (up processes.sems sem).place q = processes.sems.place q := by
      rw [ups]
      exact Function.update_of_ne apart _ _
    have apart : first ≠ p := by
      rintro rfl
      cases waiting.symm.trans free
    refine ⟨ranked.sound.up sem, fun q other blocked => ?_, followed, fun other zero => ?_⟩
    · by_cases same : q = first
      · subst same
        simp only [Processes.leaves, place_first, Place.granted.injEq, reduceCtorEq, false_or] at blocked
        subst blocked
        obtain ⟨rest', calls'⟩ := ranked.calls q sem (.inl waiting)
        exact ⟨rest', (todo_of_ne apart).trans calls'⟩
      · simp only [Processes.leaves, place_of_ne same] at blocked
        have elsewhere : q ≠ p := by
          rintro rfl
          simp only [free, reduceCtorEq, or_self] at blocked
        obtain ⟨rest', calls'⟩ := ranked.calls q other blocked
        exact ⟨rest', (todo_of_ne elsewhere).trans calls'⟩
    · by_cases same : other = sem
      · subst same
        exact ⟨first, .inr place_first⟩
      · have zero' : processes.sems.value other = 0 := by simpa only [Processes.leaves, ups, grant] using zero
        obtain ⟨q, has⟩ := ranked.kept other zero'
        refine ⟨q, still same has fun q => ?_⟩
        by_cases head : q = first
        · right
          rw [head, waiting]
          exact fun granted => by cases granted
        · rw [place_of_ne head]
          exact em _

/-- Where the calls take the semaphores in order, every step is possible and keeps the order. -/
theorem Ranked.step {calls : Code κ} {event : Event π κ} (above : Above rank 0 calls) (ranked : Ranked rank processes)
    (possible : Possible calls processes event) : ∃ after, step processes event = some after ∧ Ranked rank after := by
  cases event with
  | call p word =>
    have follows : Follows rank [] (word ++ []) := above word possible.2 [] [] (fun _ among => absurd among List.not_mem_nil) rfl
    rw [List.append_nil] at follows
    exact ⟨_, rfl, ranked.call possible.1 follows⟩
  | go p =>
    obtain ⟨inside, awake⟩ := possible
    cases place : processes.sems.place p with
    | waiting sem => exact absurd place (awake sem)
    | granted sem =>
      obtain ⟨rest, calls⟩ := ranked.calls p sem (.inr place)
      refine ⟨processes.enters p sem rest (resume processes.sems p), by rw [LockOrder.step, place, calls], ?_⟩
      apply ranked.enters calls (ranked.sound.resume place)
      · intro q
        by_cases same : q = p
        · rw [if_pos same, same]
          exact Function.update_self p _ _
        · rw [if_neg same]
          exact Function.update_of_ne same _ _
      · exact fun other _ zero => zero
      · exact fun other granted => Place.granted.inj (granted.symm.trans place)
    | free =>
      cases todo : processes.todo p with
      | nil => exact absurd todo inside
      | cons act rest =>
        cases act with
        | up sem => exact ⟨processes.leaves p sem rest, by rw [LockOrder.step, place, todo], ranked.leaves todo place⟩
        | down sem =>
          by_cases positive : 0 < processes.sems.value sem
          · refine ⟨processes.enters p sem rest (take processes.sems sem), by rw [LockOrder.step, place, todo]; exact if_pos positive, ?_⟩
            apply ranked.enters todo (ranked.sound.take sem)
            · intro q
              by_cases same : q = p
              · rw [if_pos same, same]
                exact place
              · rw [if_neg same]
                rfl
            · intro other apart zero
              exact (Function.update_of_ne apart _ _).symm.trans zero
            · intro other granted
              cases place.symm.trans granted
          · refine ⟨_, by rw [LockOrder.step, place, todo]; exact if_neg positive, ?_⟩
            exact ranked.waits todo place (Nat.eq_zero_of_not_pos positive)

omit [DecidableEq π] in
theorem boot_ranked : Ranked rank (boot π κ) := by
  constructor
  · refine ⟨fun sem p => ⟨fun among => absurd among List.not_mem_nil, fun waits => ?_⟩, fun _ => List.nodup_nil, fun _ _ => rfl⟩
    cases waits
  · rintro p sem (waits | granted)
    · cases waits
    · cases granted
  · exact fun _ => rfl
  · exact fun _ zero => absurd zero one_ne_zero

/-- Every run of calls that take the semaphores in order gets to a state that keeps the order. -/
theorem Ranked.runs {calls : Code κ} {events : List (Event π κ)} (above : Above rank 0 calls) (ranked : Ranked rank processes)
    (possible : Runs.Along LockOrder.step (Possible calls) processes events) :
    ∃ final, Runs.run LockOrder.step processes events = some final ∧ Ranked rank final := by
  induction events generalizing processes with
  | nil => exact ⟨processes, rfl, ranked⟩
  | cons event events ih =>
    obtain ⟨after, steps, ranked'⟩ := ranked.step above possible.1
    obtain ⟨final, ran, ready⟩ := ih ranked' (possible.2 after steps)
    refine ⟨final, ?_, ready⟩
    rw [Runs.run, steps]
    exact ran

/-! ## Going on -/

omit [DecidableEq π] in
theorem Ranked.inside (ranked : Ranked rank processes) (has : processes.Has p sem) : processes.todo p ≠ [] := by
  intro idle
  rcases has with held | granted
  · have follows := ranked.follows p
    rw [idle] at follows
    rw [show processes.held p = [] from follows] at held
    exact absurd held List.not_mem_nil
  · cases (ranked.free idle).symm.trans granted

omit [DecidableEq π] in
/-- Whoever a process waits for, at the end of the chain there is one that does not wait. -/
theorem Ranked.goes [Finite π] (ranked : Ranked rank processes) (inside : processes.todo p ≠ []) :
    ∃ q, processes.todo q ≠ [] ∧ ∀ sem, processes.sems.place q ≠ .waiting sem := by
  have transitive : IsTrans π fun q r => Relation.TransGen processes.WaitsFor r q := ⟨fun _ _ _ first second => second.trans first⟩
  have irreflexive : Std.Irrefl fun q r : π => Relation.TransGen processes.WaitsFor r q := ⟨ranked.orderly.noCycle⟩
  have founded := Finite.wellFounded_of_trans_of_irrefl fun q r : π => Relation.TransGen processes.WaitsFor r q
  induction p using founded.induction with
  | h p ih =>
    by_cases waits : ∃ sem, processes.sems.place p = .waiting sem
    · obtain ⟨sem, waits⟩ := waits
      have zero : processes.sems.value sem = 0 := by
        by_contra positive
        have empty := ranked.sound.empty sem (Nat.pos_of_ne_zero positive)
        have queued := (ranked.sound.queued sem p).mpr waits
        rw [empty] at queued
        exact List.not_mem_nil queued
      obtain ⟨q, has⟩ := ranked.kept sem zero
      exact ih q (.single ⟨sem, waits, has⟩) (ranked.inside has)
    · exact ⟨p, inside, fun sem blocked => waits ⟨sem, blocked⟩⟩

end Processes

end Ucore.LockOrder
