import Ucore.CheckSync
import Ucore.MonitorProofs

/-! No two neighbours of the dining table eat at once: a philosopher that has
found its neighbours not eating is alone inside until it has written that it
eats. -/
namespace Ucore.CheckSyncProofs
open Sched SemProofs Semaphores Monitors MonitorProofs CheckSync Runs

/-- No two neighbours are eating. -/
def Apart (meals : Nat → Meal) : Prop :=
  ∀ i < n, ¬ (meals i = .eating ∧ meals (right i) = .eating)

/-- Neither neighbour is eating. -/
def Clear (meals : Nat → Meal) (i : Nat) : Prop :=
  meals (left i) ≠ .eating ∧ meals (right i) ≠ .eating

/-- A statement that names a philosopher, and writes `EATING` only behind a test. -/
def Tame : Op → Prop
  | .set i meal => i < n ∧ meal ≠ .eating
  | .test i | .eat i | .signal i | .await i => i < n
  | .leave => True

/-- What a philosopher still has to do in its procedure. -/
structure Planned (plan : List Op) : Prop where
  tame : ∀ op ∈ plan, Tame op
  tests : ∀ i, .eat i ∉ plan.tail

theorem left_lt (i : Nat) : left i < n := Nat.mod_lt _ (by decide)

theorem right_lt (i : Nat) : right i < n := Nat.mod_lt _ (by decide)

theorem Apart.set (apart : Apart meals) (away : meal ≠ .eating) (j : Nat) :
    Apart (Function.update meals j meal) := by
  rintro i inside ⟨eats, eats'⟩
  refine apart i inside ⟨?_, ?_⟩
  · by_cases here : i = j
    · exact absurd (by simpa [here] using eats) away
    · simpa [here] using eats
  · by_cases here : right i = j
    · exact absurd (by simpa [here] using eats') away
    · simpa [here] using eats'

theorem Apart.eat (apart : Apart meals) (inside : j < n) (clear : Clear meals j) :
    Apart (Function.update meals j .eating) := by
  rintro i inside' ⟨eats, eats'⟩
  obtain ⟨clearLeft, clearRight⟩ := clear
  simp only [n] at inside inside'
  by_cases here : i = j
  · subst here
    have other : right i ≠ i := by
      simp only [right, n]
      omega
    exact clearRight (by simpa [other] using eats')
  · have eats : meals i = .eating := by simpa [here] using eats
    by_cases there : right i = j
    · have this : left j = i := by
        simp only [left, right, n] at there ⊢
        omega
      exact clearLeft (this ▸ eats)
    · exact apart i inside' ⟨eats, by simpa [there] using eats'⟩

theorem Planned.pop {rest : List Op} (planned : Planned (op :: rest)) :
    Planned rest ∧ ∀ i, .eat i ∉ rest :=
  ⟨⟨fun op inRest => planned.tame op (List.mem_cons_of_mem _ inRest),
    fun i inTail => planned.tests i (List.mem_of_mem_tail inTail)⟩, planned.tests⟩

theorem Planned.tested {rest : List Op} (planned : Planned (.test j :: rest)) (meals : Nat → Meal) :
    Planned (tested meals j rest) ∧ ∀ i more, tested meals j rest = .eat i :: more →
      i = j ∧ test meals j := by
  obtain ⟨planned', none_eats⟩ := planned.pop
  have inside : j < n := planned.tame (.test j) List.mem_cons_self
  by_cases passes : CheckSync.test meals j
  · simp only [CheckSync.tested, passes, if_true]
    refine ⟨⟨fun op inPlan => ?_, fun i inTail => ?_⟩, ?_⟩
    · rcases List.mem_cons.mp inPlan with rfl | inPlan
      · exact inside
      · rcases List.mem_cons.mp inPlan with rfl | inPlan
        · exact inside
        · exact planned'.tame op inPlan
    · exact none_eats i ((List.mem_cons.mp inTail).resolve_left nofun)
    · rintro i more ⟨⟩
      exact ⟨rfl, trivial⟩
  · simp only [CheckSync.tested, passes, Bool.false_eq_true, if_false]
    refine ⟨planned', fun i more same => ?_⟩
    exact absurd (same ▸ List.mem_cons_self) (none_eats i)

theorem test_clear (passes : test meals i) : Clear meals i ∧ meals i = .hungry := by
  simp only [test, Bool.and_eq_true, decide_eq_true_eq] at passes
  exact ⟨⟨passes.1.2, passes.2⟩, passes.1.1⟩

/-! ## With a monitor -/

/-- The thread whose event it is. -/
def actor : Monitors.Event D → Option Nat
  | .enter t | .leave t | .wait t _ | .signal t _ | .work t _ | .down t | .resume t => some t
  | .kernel _ => none

theorem release_pc {s after : State D} (ran : release m s = some after) :
    after.pc = s.pc ∧ after.data = s.data := by
  obtain ⟨k, -, rfl⟩ := Option.map_eq_some_iff.mp ran
  exact ⟨rfl, rfl⟩

theorem downAt_pc (s : State D) (sem : Nat) (pc : Pc) (apart : u ≠ t) :
    (downAt s t sem pc).pc u = s.pc u ∧ (downAt s t sem pc).data = s.data := by
  by_cases positive : 0 < (s.kernel.sems sem).value
  · cases pc <;> simp [downAt, positive, finish, goto, apart]
  · simp [downAt, positive, goto, apart]

/-- A thread's event moves no other thread, and writes the data only in its `work`. -/
theorem step_others {s after : State D} (ran : Monitors.step m s event = some after)
    (other : ∀ t, actor event = some t → u ≠ t) :
    after.pc u = s.pc u ∧ ((∀ t f, event ≠ .work t f) → after.data = s.data) := by
  have idle (same : some s = some after) :
      after.pc u = s.pc u ∧ ((∀ t f, event ≠ .work t f) → after.data = s.data) := by
    cases same
    exact ⟨rfl, fun _ => rfl⟩
  cases event with
  | enter t =>
    have apart := other t rfl
    by_cases enabled : (ready s.kernel t && s.pc t = .outside) = true
    · rw [Monitors.step, if_pos enabled] at ran
      cases ran
      obtain ⟨pcs, data⟩ := downAt_pc s m.mutex .entering apart
      exact ⟨pcs, fun _ => data⟩
    · rw [Monitors.step, if_neg enabled] at ran
      exact idle ran
  | leave t =>
    have apart := other t rfl
    by_cases enabled : (ready s.kernel t && s.pc t = .active) = true
    · rw [Monitors.step, if_pos enabled] at ran
      obtain ⟨between, released, rfl⟩ := Option.map_eq_some_iff.mp ran
      obtain ⟨pcs, data⟩ := release_pc released
      exact ⟨by simp [goto, apart, pcs], fun _ => data⟩
    · rw [Monitors.step, if_neg enabled] at ran
      exact idle ran
  | wait t cv =>
    have apart := other t rfl
    by_cases enabled : (ready s.kernel t && s.pc t = .active && cv < m.numCv) = true
    · rw [Monitors.step, if_pos enabled] at ran
      obtain ⟨between, released, rfl⟩ := Option.map_eq_some_iff.mp ran
      obtain ⟨pcs, data⟩ := release_pc released
      exact ⟨by simp [goto, apart, pcs], fun _ => data⟩
    · rw [Monitors.step, if_neg enabled] at ran
      exact idle ran
  | signal t cv =>
    have apart := other t rfl
    by_cases enabled : (ready s.kernel t && s.pc t = .active && cv < m.numCv) = true
    · rw [Monitors.step, if_pos enabled, condSignal] at ran
      by_cases waits : 0 < s.count cv
      · rw [if_pos waits] at ran
        obtain ⟨k, -, rfl⟩ := Option.map_eq_some_iff.mp ran
        exact ⟨by simp [goto, apart], fun _ => rfl⟩
      · rw [if_neg waits] at ran
        exact idle ran
    · rw [Monitors.step, if_neg enabled] at ran
      exact idle ran
  | work t f =>
    by_cases enabled : (ready s.kernel t && s.pc t = .active) = true
    · rw [Monitors.step, if_pos enabled] at ran
      cases ran
      exact ⟨rfl, fun unworked => absurd rfl (unworked t f)⟩
    · rw [Monitors.step, if_neg enabled] at ran
      exact idle ran
  | down t =>
    have apart := other t rfl
    by_cases running : ready s.kernel t
    · rw [Monitors.step, if_pos running] at ran
      cases pc : s.pc t with
      | signalling =>
        rw [pc] at ran
        cases ran
        obtain ⟨pcs, data⟩ := downAt_pc s m.next .suspended apart
        exact ⟨pcs, fun _ => data⟩
      | yielding cv =>
        rw [pc] at ran
        cases ran
        obtain ⟨pcs, data⟩ := downAt_pc s (m.cvSem cv) (.waiting cv) apart
        exact ⟨pcs, fun _ => data⟩
      | outside | entering | active | suspended | waiting =>
        rw [pc] at ran
        exact idle ran
    · rw [Monitors.step, if_neg running] at ran
      exact idle ran
  | resume t =>
    have apart := other t rfl
    by_cases enabled : (awake s.kernel t && blocked (s.pc t)) = true
    · rw [Monitors.step, if_pos enabled] at ran
      obtain ⟨k, -, rfl⟩ := Option.map_eq_some_iff.mp ran
      cases s.pc t <;> simp [finish, goto, apart]
    · rw [Monitors.step, if_neg enabled] at ran
      exact idle ran
  | kernel event =>
    by_cases away : foreign m.owns s.kernel event
    · rw [Monitors.step, if_pos away] at ran
      obtain ⟨k, -, rfl⟩ := Option.map_eq_some_iff.mp ran
      exact ⟨rfl, fun _ => rfl⟩
    · rw [Monitors.step, if_neg away] at ran
      exact idle ran

structure Dining (m : Monitor) (s : Condvar) : Prop where
  hoare : Hoare m s.monitor
  apart : Apart s.monitor.data
  planned : ∀ t, Planned (s.plan t)
  /-- Who is about to write that it eats is inside, and its neighbours do not eat. -/
  clear : ∀ t j rest, s.plan t = .eat j :: rest → s.monitor.pc t = .active ∧ Clear s.monitor.data j

/-- An event that writes no meal leaves the tests that others have passed valid. -/
theorem Dining.moves {s : Condvar} (dining : Dining m s) (lawful : MonitorProofs.Lawful s.monitor event)
    (unworked : ∀ t f, event ≠ .work t f) (planned : ∀ u, Planned (plan u))
    (keeps : ∀ u j rest, plan u = .eat j :: rest →
      s.plan u = .eat j :: rest ∧ ∀ t, actor event = some t → u ≠ t) :
    ∃ after, onMonitor m s event plan = some after ∧ Dining m after := by
  obtain ⟨monitor, ran, -, hoare⟩ := step_hoare s.monitor event dining.hoare lawful
  have data : monitor.data = s.monitor.data := by
    cases event with
    | kernel event => exact (step_others (u := 0) ran nofun).2 unworked
    | enter t | leave t | wait t _ | signal t _ | work t _ | down t | resume t =>
      have other : ∀ u, some t = some u → t + 1 ≠ u := by
        rintro _ ⟨⟩
        omega
      exact (step_others ran other).2 unworked
  refine ⟨{ s with monitor := monitor, plan := plan }, by simp only [onMonitor, ran, Option.map_some], hoare,
    data ▸ dining.apart, planned, fun u j rest eats => ?_⟩
  obtain ⟨before, other⟩ := keeps u j rest eats
  obtain ⟨active, clear⟩ := dining.clear u j rest before
  exact ⟨(step_others ran other).1.trans active, data ▸ clear⟩

/-- The active philosopher writes a meal. -/
theorem Dining.writes {s : Condvar} (dining : Dining m s) (running : ready s.monitor.kernel i)
    (active : s.monitor.pc i = .active) (planned : Planned rest) (none_eats : ∀ j, .eat j ∉ rest)
    (apart : Apart (f s.monitor.data)) :
    ∃ after, onMonitor m s (.work i f) (Function.update s.plan i rest) = some after ∧ Dining m after := by
  obtain ⟨monitor, ran, -, hoare⟩ := step_hoare s.monitor (.work i f) dining.hoare trivial
  obtain rfl : { s.monitor with data := f s.monitor.data } = monitor := by
    simpa [Monitors.step, running, active] using ran
  refine ⟨{ s with
      monitor := { s.monitor with data := f s.monitor.data }
      plan := Function.update s.plan i rest }, by simp only [onMonitor, ran, Option.map_some], hoare, apart,
    fun u => ?_, fun u j more eats => ?_⟩
  · by_cases same : u = i
    · simpa [same] using planned
    · simpa [same] using dining.planned u
  · by_cases same : u = i
    · obtain rfl : rest = .eat j :: more := by simpa [same] using eats
      exact absurd List.mem_cons_self (none_eats j)
    · -- whoever is about to eat is the active philosopher, and that is `i`
      have inside := (dining.clear u j more (by simpa [same] using eats)).1
      exact absurd (dining.hoare.single.owner u i (.inl inside) (.inl active)) same

theorem planned_update {plan : Nat → List Op} (planned : ∀ u, Planned (plan u)) (mine : Planned rest)
    (i u : Nat) : Planned (Function.update plan i rest u) := by
  by_cases same : u = i
  · simpa [same] using mine
  · simpa [same] using planned u

theorem planned_forks (inside : i < n) : Planned (takeForksCondvar i) ∧ Planned (putForksCondvar i) := by
  refine ⟨⟨fun op inPlan => ?_, by simp [takeForksCondvar]⟩, ⟨fun op inPlan => ?_, by simp [putForksCondvar]⟩⟩
  · simp only [takeForksCondvar, List.mem_cons, List.not_mem_nil, or_false] at inPlan
    rcases inPlan with rfl | rfl | rfl | rfl
    · exact ⟨inside, nofun⟩
    · exact inside
    · exact inside
    · trivial
  · simp only [putForksCondvar, List.mem_cons, List.not_mem_nil, or_false] at inPlan
    rcases inPlan with rfl | rfl | rfl | rfl
    · exact ⟨inside, nofun⟩
    · exact left_lt i
    · exact right_lt i
    · trivial

theorem act_dining {s : Condvar} (dining : Dining m s) (running : ready s.monitor.kernel i)
    (active : s.monitor.pc i = .active) :
    ∃ after, actCondvar m s i (s.plan i) = some after ∧ Dining m after := by
  cases plan : s.plan i with
  | nil => exact ⟨s, rfl, dining⟩
  | cons op rest =>
    have mine : Planned (op :: rest) := plan ▸ dining.planned i
    obtain ⟨planned, none_eats⟩ := mine.pop
    have planned' (u : Nat) : Planned (Function.update s.plan i rest u) :=
      planned_update dining.planned planned i u
    have keeps (u j : Nat) (more : List Op) (eats : Function.update s.plan i rest u = .eat j :: more) :
        s.plan u = .eat j :: more ∧ u ≠ i := by
      by_cases same : u = i
      · obtain rfl : rest = .eat j :: more := by simpa [same] using eats
        exact absurd List.mem_cons_self (none_eats j)
      · exact ⟨by simpa [same] using eats, same⟩
    have keeps' (u j : Nat) (more : List Op) (eats : Function.update s.plan i rest u = .eat j :: more) :
        s.plan u = .eat j :: more ∧ ∀ t, some i = some t → u ≠ t := by
      obtain ⟨before, same⟩ := keeps u j more eats
      refine ⟨before, ?_⟩
      rintro _ ⟨⟩
      exact same
    cases op with
    | set j meal =>
      have tame : j < n ∧ meal ≠ .eating := mine.tame _ List.mem_cons_self
      exact dining.writes running active planned none_eats (dining.apart.set tame.2 j)
    | eat j =>
      have inside : j < n := mine.tame _ List.mem_cons_self
      exact dining.writes running active planned none_eats
        (dining.apart.eat inside (dining.clear i j rest plan).2)
    | test j =>
      obtain ⟨planned'', passes⟩ := mine.tested s.monitor.data
      refine ⟨_, rfl, dining.hoare, dining.apart, planned_update dining.planned planned'' i,
        fun u k more eats => ?_⟩
      by_cases same : u = i
      · subst same
        obtain ⟨rfl, passes⟩ := passes k more (by simpa using eats)
        exact ⟨active, (test_clear passes).1⟩
      · exact dining.clear u k more (by simpa [same] using eats)
    | signal j => exact dining.moves trivial nofun planned' keeps'
    | await j =>
      by_cases hungry : s.monitor.data j = .hungry
      · simp only [actCondvar, hungry, if_true]
        exact dining.moves trivial nofun planned' keeps'
      · simp only [actCondvar, hungry, if_false]
        exact ⟨_, rfl, dining.hoare, dining.apart, planned', fun u k more eats =>
          dining.clear u k more (keeps u k more eats).1⟩
    | leave => exact dining.moves trivial nofun planned' keeps'

/-- The conditions of the rest of the kernel. -/
def LawfulCondvar (s : Condvar) : CheckSync.Event → Prop
  | .phil _ => True
  | .kernel event => SemProofs.Lawful s.monitor.kernel event

theorem step_dining (s : Condvar) (event : CheckSync.Event) (dining : Dining m s)
    (lawful : LawfulCondvar s event) :
    ∃ after, stepCondvar m s event = some after ∧ Apart after.monitor.data ∧ Dining m after := by
  have done {event} : (∃ after, stepCondvar m s event = some after ∧ Dining m after) →
      ∃ after, stepCondvar m s event = some after ∧ Apart after.monitor.data ∧ Dining m after :=
    fun ⟨after, ran, dining⟩ => ⟨after, ran, dining.apart, dining⟩
  refine done ?_
  cases event with
  | kernel event => exact dining.moves lawful nofun dining.planned fun u j rest eats => ⟨eats, nofun⟩
  | phil i =>
    by_cases inside : i < n
    · simp only [stepCondvar, inside, if_true]
      -- a philosopher that is not active is not about to eat
      have other (pc : s.monitor.pc i ≠ .active) (u j : Nat) (rest : List Op)
          (eats : s.plan u = .eat j :: rest) : s.plan u = .eat j :: rest ∧ ∀ t, some i = some t → u ≠ t := by
        refine ⟨eats, ?_⟩
        rintro _ ⟨⟩ rfl
        exact pc (dining.clear u j rest eats).1
      cases pc : s.monitor.pc i with
      | outside =>
        by_cases running : (ready s.monitor.kernel i && s.turn i < 2 * times) = true
        · have mine : Planned (if s.turn i % 2 = 0 then takeForksCondvar i else putForksCondvar i) := by
            split
            · exact (planned_forks inside).1
            · exact (planned_forks inside).2
          have enters : ∃ after, onMonitor m s (.enter i) (Function.update s.plan i
              (if s.turn i % 2 = 0 then takeForksCondvar i else putForksCondvar i)) = some after ∧ Dining m after :=
            dining.moves trivial nofun (planned_update dining.planned mine i) fun u j rest eats => by
              by_cases same : u = i
              · subst same
                by_cases takes : s.turn u % 2 = 0 <;> simp [takes, takeForksCondvar, putForksCondvar] at eats
              · exact other (by simp [pc]) u j rest (by simpa [same] using eats)
          obtain ⟨after, ran, dining'⟩ := enters
          simp only [running, if_true, ran, Option.map_some]
          exact ⟨_, rfl, dining'.hoare, dining'.apart, dining'.planned, dining'.clear⟩
        · exact ⟨s, by simp only [running, Bool.false_eq_true, if_false], dining⟩
      | entering | suspended | waiting =>
        exact dining.moves trivial nofun dining.planned (other (by simp [pc]))
      | signalling | yielding => exact dining.moves trivial nofun dining.planned (other (by simp [pc]))
      | active =>
        by_cases running : ready s.monitor.kernel i
        · simp only [running, if_true]
          exact act_dining dining running pc
        · exact ⟨s, by simp [running], dining⟩
    · exact ⟨s, by simp [stepCondvar, inside], dining⟩

/-! ## With semaphores -/

/-- A philosopher writes only its own hunger, and waits only for its own semaphore. -/
def Own (i : Nat) : Op → Prop
  | .set j _ | .await j => j = i
  | _ => True

def Quiet (plan : List Op) : Prop := ∀ i, .eat i ∉ plan ∧ .signal i ∉ plan

/-- Eating is announced right after it is written, and nowhere else. -/
inductive Shaped : List Op → Prop where
  | quiet : Quiet plan → Shaped plan
  | eat : Quiet plan → Shaped (.eat i :: .signal i :: plan)
  | signal : Quiet plan → Shaped (.signal i :: plan)

/-- A philosopher blocks on the mutex or on its own semaphore, and is in no other
`down` of the table. -/
def CallSema (table : Table) (i : Nat) (call : Option (Option Nat)) : Phase → Prop
  | .entering => call = some (some table.mutex)
  | .awaiting => i < n ∧ call = some (some (table.s i))
  | _ => ∀ sem, call = some (some sem) → table.owns sem = false

def hung (meals : Nat → Meal) (i : Nat) : Int := if meals i = .hungry then 1 else 0

/-- Each unit of a philosopher's semaphore pays for one time it was hungry. -/
structure Ledger (table : Table) (s : Sema) (hungers : Nat → Nat) (j : Nat) : Prop where
  room : (s.kernel.sems (table.s j)).value + hung s.meals j ≤ hungers j
  posted : ∀ t rest, s.plan t = .signal j :: rest →
    (s.kernel.sems (table.s j)).value + hung s.meals j + 1 ≤ hungers j
  bound : hungers j + (s.plan j).count (.set j .hungry) ≤ s.turn j

structure Supper (table : Table) (s : Sema) : Prop where
  steady : Steady s.kernel
  single : Single (abstract s.kernel) {table.mutex} {t | s.phase t = .inside}
  calls : ∀ t, CallSema table t (inCall s.kernel t) (s.phase t)
  apart : Apart s.meals
  tame : ∀ t, ∀ op ∈ s.plan t, Tame op ∧ Own t op
  shaped : ∀ t, Shaped (s.plan t)
  clear : ∀ t j rest, s.plan t = .eat j :: rest →
    s.phase t = .inside ∧ Clear s.meals j ∧ s.meals j = .hungry
  inside : ∀ t j rest, s.plan t = .signal j :: rest → s.phase t = .inside
  turns : ∀ j, s.turn j ≤ 2 * times
  ledger : ∃ hungers : Nat → Nat, ∀ j < n, Ledger table s hungers j

theorem Shaped.rest {rest : List Op} (shaped : Shaped (op :: rest)) (calm : ∀ i, op ≠ .eat i) : Quiet rest := by
  cases shaped with
  | quiet quiet => exact fun i => ⟨fun eats => (quiet i).1 (List.mem_cons_of_mem _ eats),
      fun signals => (quiet i).2 (List.mem_cons_of_mem _ signals)⟩
  | eat => exact absurd rfl (calm _)
  | signal quiet => exact quiet

theorem Quiet.head {rest : List Op} (quiet : Quiet plan) (i : Nat) :
    plan ≠ .eat i :: rest ∧ plan ≠ .signal i :: rest :=
  ⟨fun same => (quiet i).1 (same ▸ List.mem_cons_self), fun same => (quiet i).2 (same ▸ List.mem_cons_self)⟩

theorem owns_table_mutex (table : Table) : table.owns table.mutex := by simp [Table.owns]

theorem owns_s (table : Table) (inside : i < n) : table.owns (table.s i) := by
  simp only [Table.owns, Bool.or_eq_true, List.any_eq_true, List.mem_range, decide_eq_true_eq]
  exact .inr ⟨i, inside, rfl⟩

/-- Only one philosopher is inside. -/
theorem Supper.alone (supper : Supper table s) (inside : s.phase t = .inside) (inside' : s.phase u = .inside) :
    u = t :=
  supper.single.owner u t (.inl inside') (.inl inside)

theorem value_abstract (steady : Steady k) (sem : Nat) :
    (k.sems sem).value = ((abstract k).value sem : Int) := by
  have := steady.range sem
  simp only [abstract]
  omega

/-- A philosopher moves on, and no semaphore of a philosopher gains a unit. -/
theorem Supper.go {s : Sema} (supper : Supper table s) (steady : Steady k)
    (single : Single (abstract k) {table.mutex} {t | Function.update s.phase i phase t = .inside})
    (others : ∀ u, u ≠ i → inCall k u = inCall s.kernel u) (mine : CallSema table i (inCall k i) phase)
    (tame : ∀ op ∈ rest, Tame op ∧ Own i op) (quiet : Quiet rest)
    (values : ∀ j < n, (k.sems (table.s j)).value ≤ (s.kernel.sems (table.s j)).value)
    (turns : ∀ u, turn u ≤ 2 * times) (sameTurn : ∀ u, u ≠ i → turn u = s.turn u)
    (fewer : rest.count (.set i .hungry) + s.turn i ≤ (s.plan i).count (.set i .hungry) + turn i) :
    Supper table { s.go k i phase rest with turn := turn } := by
  obtain ⟨hungers, ledger⟩ := supper.ledger
  have plan (u : Nat) (apart : u ≠ i) : (s.go k i phase rest).plan u = s.plan u := by simp [Sema.go, apart]
  have plan' : (s.go k i phase rest).plan i = rest := by simp [Sema.go]
  have phases (u : Nat) (apart : u ≠ i) : (s.go k i phase rest).phase u = s.phase u := by simp [Sema.go, apart]
  -- nothing that `i` has left to do now is the writing or announcing of a meal
  have other {u : Nat} {op : Op} {more : List Op} (loud : ∃ j, op = .eat j ∨ op = .signal j)
      (same : (s.go k i phase rest).plan u = op :: more) : u ≠ i := by
    rintro rfl
    rw [plan'] at same
    obtain ⟨j, rfl | rfl⟩ := loud
    · exact (quiet.head j).1 same
    · exact (quiet.head j).2 same
  refine ⟨steady, single, fun u => ?_, supper.apart, fun u => ?_, fun u => ?_, fun u j more eats => ?_,
    fun u j more signals => ?_, turns, hungers, fun j inside => ⟨?_, fun u more signals => ?_, ?_⟩⟩
  · by_cases same : u = i
    · subst same
      simpa [Sema.go] using mine
    · simpa [Sema.go, same, others u same] using supper.calls u
  · by_cases same : u = i
    · subst same
      rwa [plan']
    · rw [plan u same]
      exact supper.tame u
  · by_cases same : u = i
    · subst same
      rw [plan']
      exact .quiet quiet
    · rw [plan u same]
      exact supper.shaped u
  · have apart := other ⟨j, .inl rfl⟩ eats
    rw [plan u apart] at eats
    rw [phases u apart]
    exact supper.clear u j more eats
  · have apart := other ⟨j, .inr rfl⟩ signals
    rw [plan u apart] at signals
    rw [phases u apart]
    exact supper.inside u j more signals
  · have room := (ledger j inside).room
    have := values j inside
    simp only [Sema.go]
    omega
  · have apart := other ⟨j, .inr rfl⟩ signals
    rw [plan u apart] at signals
    have posted := (ledger j inside).posted u more signals
    have := values j inside
    simp only [Sema.go]
    omega
  · have bound := (ledger j inside).bound
    by_cases same : j = i
    · subst same
      have mine' : (s.go k j phase rest).plan j = rest := plan'
      simp only [mine']
      omega
    · have other' : (s.go k i phase rest).plan j = s.plan j := plan j same
      simp only [other', sameTurn j same]
      exact bound

/-- The philosopher inside acts; nobody else is about to write or announce a meal. -/
theorem Supper.act {s : Sema} (supper : Supper table s) (here : s.phase i = .inside) (steady : Steady k)
    (single : Single (abstract k) {table.mutex} {t | s.phase t = .inside})
    (inCalls : inCall k = inCall s.kernel) (apart : Apart meals)
    (tame : ∀ op ∈ rest, Tame op ∧ Own i op) (shaped : Shaped rest)
    (clear : ∀ j more, rest = .eat j :: more → Clear meals j ∧ meals j = .hungry)
    (ledger : ∃ hungers : Nat → Nat, ∀ j < n, (k.sems (table.s j)).value + hung meals j ≤ hungers j ∧
      (∀ more, rest = .signal j :: more → (k.sems (table.s j)).value + hung meals j + 1 ≤ hungers j) ∧
      hungers j + (Function.update s.plan i rest j).count (.set j .hungry) ≤ s.turn j) :
    Supper table { s.go k i .inside rest with meals := meals } := by
  obtain ⟨hungers, ledger⟩ := ledger
  have phases : Function.update s.phase i .inside = s.phase := by
    rw [← here, Function.update_eq_self]
  have plan' : Function.update s.plan i rest i = rest := Function.update_self ..
  have plan (u : Nat) (other : u ≠ i) : Function.update s.plan i rest u = s.plan u :=
    Function.update_of_ne other ..
  refine ⟨steady, ?_, fun u => ?_, apart, fun u => ?_, fun u => ?_, fun u j more eats => ?_,
    fun u j more signals => ?_, supper.turns, hungers, fun j inside => ⟨(ledger j inside).1,
      fun u more signals => ?_, (ledger j inside).2.2⟩⟩
  · simpa only [Sema.go, phases] using single
  · simpa only [Sema.go, phases, inCalls] using supper.calls u
  · by_cases same : u = i
    · subst same
      simpa only [Sema.go, plan'] using tame
    · simpa only [Sema.go, plan u same] using supper.tame u
  · by_cases same : u = i
    · subst same
      simpa only [Sema.go, plan'] using shaped
    · simpa only [Sema.go, plan u same] using supper.shaped u
  · by_cases same : u = i
    · subst same
      simp only [Sema.go, plan'] at eats
      exact ⟨by simpa only [Sema.go, phases] using here, clear j more eats⟩
    · simp only [Sema.go, plan u same] at eats
      exact absurd (supper.alone here (supper.clear u j more eats).1) same
  · by_cases same : u = i
    · subst same
      simpa only [Sema.go, phases] using here
    · simp only [Sema.go, plan u same] at signals
      exact absurd (supper.alone here (supper.inside u j more signals)) same
  · by_cases same : u = i
    · subst same
      simp only [Sema.go, plan'] at signals
      exact (ledger j inside).2.1 more signals
    · simp only [Sema.go, plan u same] at signals
      exact absurd (supper.alone here (supper.inside u j more signals)) same

/-- A write of `HUNGRY` or `THINKING`. -/
theorem Supper.sets {s : Sema} (supper : Supper table s) (here : s.phase i = .inside)
    (plan : s.plan i = .set j meal :: rest) :
    Supper table { s.go s.kernel i .inside rest with meals := Function.update s.meals j meal } := by
  obtain ⟨⟨inside, away⟩, rfl⟩ := supper.tame i (.set j meal) (plan ▸ List.mem_cons_self)
  have quiet : Quiet rest := (plan ▸ supper.shaped j : Shaped (.set j meal :: rest)).rest nofun
  obtain ⟨hungers, ledger⟩ := supper.ledger
  refine supper.act here supper.steady supper.single rfl (supper.apart.set away j)
    (fun op inRest => supper.tame j op (plan ▸ List.mem_cons_of_mem _ inRest)) (.quiet quiet)
    (fun k more eats => absurd eats (quiet.head k).1)
    ⟨Function.update hungers j (hungers j + if meal = .hungry then 1 else 0), fun k inside' =>
      ⟨?_, fun more signals => absurd signals (quiet.head k).2, ?_⟩⟩
  · have room := (ledger k inside').room
    by_cases same : k = j
    · subst same
      have some_hunger : 0 ≤ hung s.meals k := by
        simp only [hung]
        split <;> omega
      simp only [hung, Function.update_self] at some_hunger ⊢
      simp only [hung] at room
      by_cases hungry : meal = .hungry <;> simp only [hungry, if_true, if_false] <;> push_cast <;> omega
    · simpa [hung, same] using room
  · have bound := (ledger k inside').bound
    by_cases same : k = j
    · subst same
      rw [plan] at bound
      by_cases hungry : meal = .hungry
      · subst hungry
        simp only [Function.update_self, if_true]
        rw [List.count_cons_self] at bound
        omega
      · have different : (Op.set k meal) ≠ .set k .hungry := by simpa using hungry
        simp only [Function.update_self, hungry, if_false]
        rw [List.count_cons_of_ne different] at bound
        omega
    · simpa [same] using bound

/-- A hungry philosopher with no eating neighbour starts to eat. -/
theorem Supper.eats {s : Sema} (supper : Supper table s) (here : s.phase i = .inside)
    (plan : s.plan i = .eat j :: rest) :
    Supper table { s.go s.kernel i .inside rest with meals := Function.update s.meals j .eating } := by
  obtain ⟨inside, -⟩ := supper.tame i (.eat j) (plan ▸ List.mem_cons_self)
  obtain ⟨-, clear, hungry⟩ := supper.clear i j rest plan
  obtain ⟨hungers, ledger⟩ := supper.ledger
  have shaped : Shaped (.eat j :: rest) := plan ▸ supper.shaped i
  have shaped' : Shaped rest ∧ ∀ k more, rest ≠ .eat k :: more := by
    cases shaped with
    | quiet quiet => exact absurd List.mem_cons_self (quiet j).1
    | eat quiet => exact ⟨.signal quiet, nofun⟩
  refine supper.act here supper.steady supper.single rfl (supper.apart.eat inside clear)
    (fun op inRest => supper.tame i op (plan ▸ List.mem_cons_of_mem _ inRest)) shaped'.1
    (fun k more eats => absurd eats (shaped'.2 k more)) ⟨hungers, fun k inside' => ⟨?_, ?_, ?_⟩⟩
  · have room := (ledger k inside').room
    by_cases same : k = j
    · subst same
      simp only [hung, hungry, if_true] at room
      simp only [hung, Function.update_self, reduceCtorEq, if_false]
      omega
    · simpa [hung, same] using room
  · rintro more rfl
    obtain rfl : k = j := by
      cases shaped with
      | quiet quiet => exact absurd List.mem_cons_self (quiet j).1
      | eat quiet => rfl
    have room := (ledger k inside').room
    simp only [hung, hungry, if_true] at room
    simp only [hung, Function.update_self, reduceCtorEq, if_false]
    omega
  · have bound := (ledger k inside').bound
    by_cases same : k = i
    · subst same
      rw [plan, List.count_cons_of_ne (by simp)] at bound
      simpa using bound
    · simpa [same] using bound

/-- A test writes nothing. -/
theorem Supper.tests {s : Sema} (supper : Supper table s) (here : s.phase i = .inside)
    (plan : s.plan i = .test j :: rest) :
    Supper table (s.go s.kernel i .inside (tested s.meals j rest)) := by
  obtain ⟨inside, -⟩ := supper.tame i (.test j) (plan ▸ List.mem_cons_self)
  have quiet : Quiet rest := (plan ▸ supper.shaped i : Shaped (.test j :: rest)).rest nofun
  obtain ⟨hungers, ledger⟩ := supper.ledger
  have tame : ∀ op ∈ rest, Tame op ∧ Own i op := fun op inRest =>
    supper.tame i op (plan ▸ List.mem_cons_of_mem _ inRest)
  have bound (k : Nat) (inside' : k < n) :
      hungers k + (Function.update s.plan i (tested s.meals j rest) k).count (.set k .hungry) ≤ s.turn k := by
    have bound := (ledger k inside').bound
    by_cases same : k = i
    · subst same
      rw [plan, List.count_cons_of_ne (by simp)] at bound
      by_cases passes : test s.meals j <;> simpa [tested, passes] using bound
    · simpa [same] using bound
  by_cases passes : test s.meals j
  · obtain ⟨clear, hungry⟩ := test_clear passes
    have whole : tested s.meals j rest = .eat j :: .signal j :: rest := by simp [tested, passes]
    rw [whole] at bound ⊢
    refine supper.act here supper.steady supper.single rfl supper.apart (fun op inPlan => ?_) (.eat quiet)
      ?_ ⟨hungers, fun k inside' => ⟨(ledger k inside').room, nofun, bound k inside'⟩⟩
    · rcases List.mem_cons.mp inPlan with rfl | inPlan
      · exact ⟨inside, trivial⟩
      · rcases List.mem_cons.mp inPlan with rfl | inPlan
        · exact ⟨inside, trivial⟩
        · exact tame op inPlan
    · rintro k more ⟨⟩
      exact ⟨clear, hungry⟩
  · have whole : tested s.meals j rest = rest := by simp [tested, passes]
    rw [whole] at bound ⊢
    exact supper.act here supper.steady supper.single rfl supper.apart tame (.quiet quiet)
      (fun k more eats => absurd eats (quiet.head k).1)
      ⟨hungers, fun k inside' => ⟨(ledger k inside').room,
        fun more signals => absurd signals (quiet.head k).2, bound k inside'⟩⟩

theorem up_value (a : Semaphores.State Nat Nat) (sem other : Nat) :
    (Semaphores.up a sem).value other ≤ a.value other + if other = sem then 1 else 0 := by
  cases waits : a.queue sem <;> by_cases same : other = sem <;>
    simp [Semaphores.up, waits, post, grant, same]

/-- What no operation on other semaphores adds to, in the kernel's own numbers. -/
theorem values_le {k after : Kernel} (steady : Steady k) (steady' : Steady after)
    (value : (abstract after).value sem ≤ (abstract k).value sem + more) :
    (after.sems sem).value ≤ (k.sems sem).value + more := by
  rw [value_abstract steady, value_abstract steady']
  exact_mod_cast value

/-- The philosopher inside announces a meal. -/
theorem Supper.signals {s : Sema} (supper : Supper table s) (here : s.phase i = .inside)
    (plan : s.plan i = .signal j :: rest) :
    ∃ k, up s.kernel (table.s j) = some k ∧ Supper table (s.go k i .inside rest) := by
  obtain ⟨inside, -⟩ := supper.tame i (.signal j) (plan ▸ List.mem_cons_self)
  have quiet : Quiet rest := (plan ▸ supper.shaped i : Shaped (.signal j :: rest)).rest nofun
  obtain ⟨hungers, ledger⟩ := supper.ledger
  have some_hunger : 0 ≤ hung s.meals j := by
    simp only [hung]
    split <;> omega
  have posted := (ledger j inside).posted i rest plan
  have bound := (ledger j inside).bound
  have turns := supper.turns j
  simp only [times] at turns
  have fits : (s.kernel.sems (table.s j)).waitQueue = [] →
      (s.kernel.sems (table.s j)).value < 2 ^ 31 - 1 := fun _ => by omega
  obtain ⟨k, ran, steady, same, inCalls⟩ := supper.steady.up fits
  have away : table.s j ∉ ({table.mutex} : Set Nat) := table.apart j inside
  refine ⟨k, ran, supper.act here steady (same ▸ supper.single.up_other away) inCalls supper.apart
    (fun op inRest => supper.tame i op (plan ▸ List.mem_cons_of_mem _ inRest)) (.quiet quiet)
    (fun k more eats => absurd eats (quiet.head k).1)
    ⟨hungers, fun l inside' => ⟨?_, fun more signals => absurd signals (quiet.head l).2, ?_⟩⟩⟩
  · have value := values_le supper.steady steady (same ▸ up_value (abstract s.kernel) (table.s j) (table.s l))
    by_cases this : l = j
    · subst this
      simp only [if_true] at value
      omega
    · have apart : table.s l ≠ table.s j := fun equal => this (table.distinct l inside' j inside equal)
      have room := (ledger l inside').room
      simp only [apart, if_false] at value
      omega
  · have bound := (ledger l inside').bound
    by_cases this : l = i
    · subst this
      rw [plan, List.count_cons_of_ne (by simp)] at bound
      simpa using bound
    · simpa [this] using bound

/-- The philosopher inside goes out. -/
theorem Supper.leaves {s : Sema} (supper : Supper table s) (here : s.phase i = .inside)
    (plan : s.plan i = .leave :: rest) :
    ∃ k, up s.kernel table.mutex = some k ∧ Supper table (s.go k i .outside rest) := by
  have quiet : Quiet rest := (plan ▸ supper.shaped i : Shaped (.leave :: rest)).rest nofun
  have one : (abstract s.kernel).value table.mutex ≤ 1 := supper.single.one table.mutex rfl
  have value := value_abstract supper.steady table.mutex
  have fits : (s.kernel.sems table.mutex).waitQueue = [] →
      (s.kernel.sems table.mutex).value < 2 ^ 31 - 1 := fun _ => by omega
  obtain ⟨k, ran, steady, same, inCalls⟩ := supper.steady.up fits
  have single : Single (abstract k) {table.mutex} {t | Function.update s.phase i .outside t = .inside} := by
    rw [at_update, if_neg nofun, same]
    exact supper.single.up here rfl
  have mine := supper.calls i
  rw [here, ← inCalls] at mine
  refine ⟨k, ran, supper.go steady single (fun u _ => by rw [inCalls]) mine
    (fun op inRest => supper.tame i op (plan ▸ List.mem_cons_of_mem _ inRest)) quiet (fun j inside => ?_)
    supper.turns (fun _ _ => rfl) (by rw [plan, List.count_cons_of_ne (by simp)])⟩
  have values := values_le supper.steady steady (same ▸ up_value (abstract s.kernel) table.mutex (table.s j))
  simpa [table.apart j inside] using values

/-- A `down` of the philosopher's own semaphore or of the mutex, returned or blocked. -/
theorem Supper.downs {s : Sema} {sem : Nat} {returned blocked : Phase} {rest : List Op} {turn : Nat → Nat}
    (supper : Supper table s) (running : ready s.kernel i) (here : s.phase i = .outside)
    (own : sem = table.mutex ∧ returned = .inside ∧ blocked = .entering ∨
      i < n ∧ sem = table.s i ∧ returned = .outside ∧ blocked = .awaiting)
    (tame : ∀ op ∈ rest, Tame op ∧ Own i op) (quiet : Quiet rest)
    (turns : ∀ u, turn u ≤ 2 * times) (sameTurn : ∀ u, u ≠ i → turn u = s.turn u)
    (fewer : rest.count (.set i .hungry) + s.turn i ≤ (s.plan i).count (.set i .hungry) + turn i) :
    Supper table { downSema s i sem returned blocked rest with turn := turn } := by
  obtain ⟨outside, free⟩ := ready_free supper.steady running
  obtain ⟨steady, same, inCalls⟩ := supper.steady.down running sem
  have known := supper.steady.range sem
  have value : (abstract s.kernel).value sem = (s.kernel.sems sem).value.toNat := rfl
  have before : s.phase i ≠ .inside := by simp [here]
  by_cases positive : 0 < (s.kernel.sems sem).value
  · have positive' : 0 < (abstract s.kernel).value sem := by omega
    rw [if_pos positive] at inCalls
    rw [Semaphores.down, if_pos positive'] at same
    have single : Single (abstract (down s.kernel i sem)) {table.mutex}
        {t | Function.update s.phase i returned t = .inside} := by
      rw [same]
      rcases own with ⟨rfl, rfl, -⟩ | ⟨inside, rfl, rfl, -⟩
      · rw [at_update, if_pos rfl]
        exact supper.single.take rfl positive' free
      · have never : Phase.outside ≠ .inside := by decide
        rw [at_update_same before never]
        exact supper.single.take_other (table.apart i inside)
    have mine : CallSema table i (inCall (down s.kernel i sem) i) returned := by
      rw [inCalls, outside]
      rcases own with ⟨-, rfl, -⟩ | ⟨-, -, rfl, -⟩ <;> simp [CallSema]
    have values (j : Nat) (_ : j < n) :
        ((down s.kernel i sem).sems (table.s j)).value ≤ (s.kernel.sems (table.s j)).value + (0 : Nat) := by
      refine values_le supper.steady steady ?_
      rw [same]
      by_cases this : table.s j = sem <;> simp [Semaphores.take, this]
    simp only [downSema, positive, if_true]
    exact supper.go steady single (fun u _ => by rw [inCalls]) mine tame quiet
      (fun j inside => by simpa using values j inside) turns sameTurn fewer
  · rw [if_neg positive] at inCalls
    rw [Semaphores.down, if_neg (by omega)] at same
    have single : Single (abstract (down s.kernel i sem)) {table.mutex}
        {t | Function.update s.phase i blocked t = .inside} := by
      rw [same, at_update_same before (by rcases own with ⟨-, -, rfl⟩ | ⟨-, -, -, rfl⟩ <;> decide)]
      exact supper.single.wait free fun _ => before
    have mine : CallSema table i (inCall (down s.kernel i sem) i) blocked := by
      rw [inCalls, Function.update_self]
      rcases own with ⟨rfl, -, rfl⟩ | ⟨inside, rfl, -, rfl⟩
      · rfl
      · exact ⟨inside, rfl⟩
    have values (j : Nat) (_ : j < n) :
        ((down s.kernel i sem).sems (table.s j)).value ≤ (s.kernel.sems (table.s j)).value + (0 : Nat) := by
      refine values_le supper.steady steady ?_
      rw [same]
      rfl
    simp only [downSema, positive, if_false]
    exact supper.go steady single (fun u apart => by rw [inCalls, Function.update_of_ne apart]) mine tame quiet
      (fun j inside => by simpa using values j inside) turns sameTurn fewer

/-- Who is not inside has no meal left to write or to announce. -/
theorem Supper.calm (supper : Supper table s) (away : s.phase i ≠ .inside) : Quiet (s.plan i) := by
  cases plan : s.plan i with
  | nil => exact fun _ => ⟨nofun, nofun⟩
  | cons op rest =>
    have shaped : Shaped (op :: rest) := plan ▸ supper.shaped i
    cases shaped with
    | quiet quiet => exact quiet
    | eat => exact absurd (supper.clear i _ _ plan).1 away
    | signal => exact absurd (supper.inside i _ _ plan) away

theorem tame_forks (inside : i < n) :
    (∀ op ∈ takeForksSema i, Tame op ∧ Own i op) ∧ ∀ op ∈ putForksSema i, Tame op ∧ Own i op := by
  refine ⟨fun op inPlan => ?_, fun op inPlan => ?_⟩
  · simp only [takeForksSema, List.mem_cons, List.not_mem_nil, or_false] at inPlan
    rcases inPlan with rfl | rfl | rfl | rfl
    · exact ⟨⟨inside, nofun⟩, rfl⟩
    · exact ⟨inside, trivial⟩
    · exact ⟨trivial, trivial⟩
    · exact ⟨inside, rfl⟩
  · simp only [putForksSema, List.mem_cons, List.not_mem_nil, or_false] at inPlan
    rcases inPlan with rfl | rfl | rfl | rfl
    · exact ⟨⟨inside, nofun⟩, rfl⟩
    · exact ⟨left_lt i, trivial⟩
    · exact ⟨right_lt i, trivial⟩
    · exact ⟨trivial, trivial⟩

theorem quiet_forks (i : Nat) : Quiet (takeForksSema i) ∧ Quiet (putForksSema i) :=
  ⟨fun _ => by simp [takeForksSema], fun _ => by simp [putForksSema]⟩

theorem Supper.starts {s : Sema} (supper : Supper table s) (inside : i < n) (running : ready s.kernel i)
    (here : s.phase i = .outside) (plan : s.plan i = []) (left : s.turn i < 2 * times) :
    Supper table (startSema table s i) := by
  obtain ⟨tameTake, tamePut⟩ := tame_forks inside
  obtain ⟨quietTake, quietPut⟩ := quiet_forks i
  refine supper.downs running here (.inl ⟨rfl, rfl, rfl⟩) ?_ ?_ (fun u => ?_)
    (fun u apart => Function.update_of_ne apart ..) ?_
  · split
    · exact tameTake
    · exact tamePut
  · split
    · exact quietTake
    · exact quietPut
  · by_cases same : u = i
    · simp only [same, Function.update_self]
      omega
    · simpa [same] using supper.turns u
  · -- one turn, and at most one time hungry in it
    have once : (if s.turn i % 2 = 0 then takeForksSema i else putForksSema i).count (.set i .hungry) ≤ 1 := by
      split
      · simp [takeForksSema]
      · simp [putForksSema]
    rw [plan, Function.update_self]
    simp only [List.count_nil]
    omega

theorem Supper.awaits {s : Sema} (supper : Supper table s) (inside : i < n) (running : ready s.kernel i)
    (here : s.phase i = .outside) (plan : s.plan i = .await j :: rest) :
    Supper table (downSema s i (table.s j) .outside .awaiting rest) := by
  obtain ⟨-, rfl⟩ := supper.tame i (.await j) (plan ▸ List.mem_cons_self)
  have quiet : Quiet rest := (plan ▸ supper.shaped j : Shaped (.await j :: rest)).rest nofun
  exact supper.downs running here (.inr ⟨inside, rfl, rfl, rfl⟩)
    (fun op inRest => supper.tame j op (plan ▸ List.mem_cons_of_mem _ inRest)) quiet supper.turns
    (fun _ _ => rfl) (by rw [plan, List.count_cons_of_ne (by simp)])

/-- A woken philosopher returns from its `down`. -/
theorem Supper.resumes {s : Sema} {phase : Phase} (supper : Supper table s) (running : awake s.kernel i)
    (woken : s.phase i = .entering ∧ phase = .inside ∨ s.phase i = .awaiting ∧ phase = .outside) :
    ∃ k, Sched.resume s.kernel i = some k ∧ Supper table (s.go k i phase (s.plan i)) := by
  have away : s.phase i ≠ .inside := by
    rcases woken with ⟨here, -⟩ | ⟨here, -⟩ <;> simp [here]
  have quiet := supper.calm away
  have call := supper.calls i
  obtain ⟨sem, call', own⟩ : ∃ sem, inCall s.kernel i = some (some sem) ∧
      (sem = table.mutex ∧ phase = .inside ∨ sem ≠ table.mutex ∧ phase = .outside) := by
    rcases woken with ⟨here, rfl⟩ | ⟨here, rfl⟩
    · rw [here] at call
      exact ⟨_, call, .inl ⟨rfl, rfl⟩⟩
    · rw [here] at call
      exact ⟨_, call.2, .inr ⟨table.apart i call.1, rfl⟩⟩
  obtain ⟨frame, inside, same_sem⟩ := Option.map_eq_some_iff.mp call'
  cases frame with
  | sleep => cases same_sem
  | down other flags =>
    obtain rfl : other = sem := by simpa [semOf] using same_sem
    obtain ⟨k, ran, steady, same, granted, inCalls⟩ := supper.steady.downResume running inside
    have single : Single (abstract k) {table.mutex} {t | Function.update s.phase i phase t = .inside} := by
      rw [same]
      rcases own with ⟨rfl, rfl⟩ | ⟨-, rfl⟩
      · rw [at_update, if_pos rfl]
        exact supper.single.resume rfl granted
      · have never : Phase.outside ≠ .inside := by decide
        rw [at_update_same away never]
        exact supper.single.resume_other i
    have mine : CallSema table i (inCall k i) phase := by
      rw [inCalls, Function.update_self]
      rcases own with ⟨-, rfl⟩ | ⟨-, rfl⟩ <;> simp [CallSema]
    have values (j : Nat) (_ : j < n) :
        (k.sems (table.s j)).value ≤ (s.kernel.sems (table.s j)).value + (0 : Nat) := by
      refine values_le supper.steady steady ?_
      rw [same]
      rfl
    exact ⟨k, by simp only [Sched.resume, inside, ran], supper.go steady single
      (fun u apart => by rw [inCalls, Function.update_of_ne apart]) mine (supper.tame i) quiet
      (fun j inside => by simpa using values j inside) supper.turns (fun _ _ => rfl) le_rfl⟩

theorem elsewhere_narrow {owns owns' : Nat → Bool} (elsewhere : Elsewhere owns action)
    (fewer : ∀ sem, owns' sem → owns sem) : Elsewhere owns' action := by
  have away {sem : Nat} (away : owns sem = false) : owns' sem = false := by
    by_contra own
    exact Bool.false_ne_true (away.symm.trans (fewer sem (by simpa using own)))
  cases action with
  | none => trivial
  | up | take | wait | resume => exact away elsewhere

theorem Supper.kernels {s : Sema} (supper : Supper table s) (away : foreign table.owns s.kernel event)
    (lawful : SemProofs.Lawful s.kernel event) :
    ∃ k, Sched.step s.kernel event = some k ∧ Supper table { s with kernel := k } := by
  obtain ⟨k, ran, steady, same, enabled, inCalls⟩ := supper.steady.step lawful
  have elsewhere := foreign_elsewhere away
  have mutex : {sem | (fun sem => decide (sem = table.mutex)) sem = true} = {table.mutex} := by
    ext sem
    simp
  have single : Single (abstract k) {table.mutex} {t | s.phase t = .inside} := by
    rw [same, ← mutex]
    refine perform_single_elsewhere (mutex ▸ supper.single) (elsewhere_narrow elsewhere fun sem own => ?_) enabled
    rw [of_decide_eq_true own]
    exact owns_table_mutex table
  have call {sem : Nat} (own : table.owns sem) (t : Nat) := foreign_calls supper.steady away inCalls own t
  have calls (t : Nat) : CallSema table t (inCall k t) (s.phase t) := by
    have before := supper.calls t
    have outside (before : ∀ sem, inCall s.kernel t = some (some sem) → table.owns sem = false) (sem : Nat)
        (inside : inCall k t = some (some sem)) : table.owns sem = false := by
      by_contra own
      have own : table.owns sem := by simpa using own
      exact Bool.false_ne_true ((before sem ((call own t).mp inside)).symm.trans own)
    cases phase : s.phase t with
    | entering =>
      rw [phase] at before
      exact (call (owns_table_mutex table) t).mpr before
    | awaiting =>
      rw [phase] at before
      exact ⟨before.1, (call (owns_s table before.1) t).mpr before.2⟩
    | outside =>
      rw [phase] at before
      exact outside before
    | inside =>
      rw [phase] at before
      exact outside before
  obtain ⟨hungers, ledger⟩ := supper.ledger
  have values (j : Nat) (inside : j < n) :
      (k.sems (table.s j)).value ≤ (s.kernel.sems (table.s j)).value + (0 : Nat) := by
    refine values_le supper.steady steady ?_
    rw [same, (perform_elsewhere supper.steady.sound elsewhere enabled (owns_s table inside)).1]
    omega
  refine ⟨k, ran, steady, single, calls, supper.apart, supper.tame, supper.shaped, supper.clear,
    supper.inside, supper.turns, hungers, fun j inside => ⟨?_, fun t rest signals => ?_, (ledger j inside).bound⟩⟩
  · have room := (ledger j inside).room
    have value := values j inside
    simp only
    omega
  · have posted := (ledger j inside).posted t rest signals
    have value := values j inside
    simp only
    omega

def LawfulSema (s : Sema) : CheckSync.Event → Prop
  | .phil _ => True
  | .kernel event => SemProofs.Lawful s.kernel event

theorem act_supper {s : Sema} (supper : Supper table s) (here : s.phase i = .inside) :
    ∃ after, actSema table s i (s.plan i) = some after ∧ Supper table after := by
  cases plan : s.plan i with
  | nil => exact ⟨s, rfl, supper⟩
  | cons op rest =>
    cases op with
    | set j meal =>
      obtain ⟨-, own⟩ := supper.tame i (.set j meal) (plan ▸ List.mem_cons_self)
      obtain rfl : j = i := own
      exact ⟨_, rfl, supper.sets here plan⟩
    | test j => exact ⟨_, rfl, supper.tests here plan⟩
    | eat j => exact ⟨_, rfl, supper.eats here plan⟩
    | signal j =>
      obtain ⟨k, ran, supper'⟩ := supper.signals here plan
      exact ⟨_, by simp only [actSema, ran, Option.map_some], supper'⟩
    | await j => exact ⟨s, rfl, supper⟩
    | leave =>
      obtain ⟨k, ran, supper'⟩ := supper.leaves here plan
      exact ⟨_, by simp only [actSema, ran, Option.map_some], supper'⟩

theorem step_supper (s : Sema) (event : CheckSync.Event) (supper : Supper table s)
    (lawful : LawfulSema s event) :
    ∃ after, stepSema table s event = some after ∧ Apart after.meals ∧ Supper table after := by
  have done {event} : (∃ after, stepSema table s event = some after ∧ Supper table after) →
      ∃ after, stepSema table s event = some after ∧ Apart after.meals ∧ Supper table after :=
    fun ⟨after, ran, supper⟩ => ⟨after, ran, supper.apart, supper⟩
  refine done ?_
  cases event with
  | kernel event =>
    by_cases away : foreign table.owns s.kernel event
    · obtain ⟨k, ran, supper'⟩ := supper.kernels away lawful
      exact ⟨_, by simp only [stepSema, away, if_true, ran, Option.map_some], supper'⟩
    · exact ⟨s, by simp only [stepSema, away, Bool.false_eq_true, if_false], supper⟩
  | phil i =>
    by_cases inside : i < n
    · simp only [stepSema, inside, if_true]
      cases here : s.phase i with
      | outside =>
        by_cases running : ready s.kernel i
        · simp only [running, if_true]
          cases plan : s.plan i with
          | nil =>
            by_cases left : s.turn i < 2 * times
            · exact ⟨_, by simp only [left, if_true], supper.starts inside running here plan left⟩
            · exact ⟨s, by simp only [left, if_false], supper⟩
          | cons op rest =>
            cases op with
            | await j => exact ⟨_, rfl, supper.awaits inside running here plan⟩
            | set | test | eat | signal | leave => exact ⟨s, rfl, supper⟩
        · exact ⟨s, by simp only [running, Bool.false_eq_true, if_false], supper⟩
      | entering =>
        by_cases running : awake s.kernel i
        · obtain ⟨k, ran, supper'⟩ := supper.resumes running (.inl ⟨here, rfl⟩)
          exact ⟨_, by simp only [running, if_true, ran, Option.map_some], supper'⟩
        · exact ⟨s, by simp only [running, Bool.false_eq_true, if_false], supper⟩
      | awaiting =>
        by_cases running : awake s.kernel i
        · obtain ⟨k, ran, supper'⟩ := supper.resumes running (.inr ⟨here, rfl⟩)
          exact ⟨_, by simp only [running, if_true, ran, Option.map_some], supper'⟩
        · exact ⟨s, by simp only [running, Bool.false_eq_true, if_false], supper⟩
      | inside =>
        by_cases running : ready s.kernel i
        · simp only [running, if_true]
          exact act_supper supper here
        · exact ⟨s, by simp only [running, Bool.false_eq_true, if_false], supper⟩
    · exact ⟨s, by simp only [stepSema, inside, if_false], supper⟩

/-! ## From the start of `check_sync` -/

/-- A kernel that has run from boot, with nobody in a `down` on some semaphores. -/
def Reached (owns : Nat → Bool) (k : Kernel) : Prop :=
  (∃ initial : Nat → Int, (∀ sem, 0 ≤ initial sem ∧ initial sem < 2 ^ 31) ∧ ∃ events,
    Along Sched.step SemProofs.Lawful (boot initial) events ∧ run Sched.step (boot initial) events = some k) ∧
  ∀ t sem, inCall k t = some (some sem) → owns sem = false

theorem Reached.steady (reached : Reached owns k) : Steady k := by
  obtain ⟨initial, range, events, lawful, ran⟩ := reached.1
  refine run_keeps (fun k event after steady lawful ran => ?_) (boot_steady initial range) lawful ran
  obtain ⟨after', ran', steady', -⟩ := steady.step lawful
  cases ran.symm.trans ran'
  exact steady'

theorem thinking_apart : Apart fun _ => .thinking := fun _ _ ⟨eats, _⟩ => nomatch eats

theorem checkCondvar_dining {s : Condvar} (reached : Reached m.owns k) (init : checkCondvar m k mem = some s) :
    Dining m s := by
  obtain ⟨monitor, built, rfl⟩ := Option.map_eq_some_iff.mp init
  have data : monitor.data = fun _ => .thinking := by
    simp only [monitorInit, Option.ite_none_right_eq_some, Option.some.injEq] at built
    obtain ⟨-, rfl⟩ := built
    rfl
  exact ⟨monitorInit_hoare reached.steady reached.2 built, data ▸ thinking_apart,
    fun _ => ⟨by simp, by simp⟩, fun _ _ _ eats => by simp at eats⟩

theorem checkSema_supper (reached : Reached table.owns k) : Supper table (checkSema table k) := by
  have steady := reached.steady
  have outside {t sem : Nat} (own : table.owns sem) : inCall k t ≠ some (some sem) :=
    fun inside => Bool.false_ne_true ((reached.2 t sem inside).symm.trans own)
  have kernel : (checkSema table k).kernel = { k with sems := (checkSema table k).kernel.sems } := by
    simp only [checkSema, foldl_semInit]
    rfl
  have sems (sem : Nat) : (checkSema table k).kernel.sems sem =
      if sem ∈ (List.range n).map table.s then ⟨0, []⟩ else (semInit k table.mutex 1).sems sem := by
    simp only [checkSema, foldl_semInit]
  have mutex : table.mutex ∉ (List.range n).map table.s := by
    rintro listed
    obtain ⟨i, inside, same⟩ := List.mem_map.mp listed
    exact table.apart i (List.mem_range.mp inside) same
  have one : ((checkSema table k).kernel.sems table.mutex) = ⟨1, []⟩ := by
    rw [sems, if_neg mutex]
    simp [semInit, setSem]
  have zero (i : Nat) (inside : i < n) : ((checkSema table k).kernel.sems (table.s i)) = ⟨0, []⟩ := by
    have listed : table.s i ∈ (List.range n).map table.s :=
      List.mem_map.mpr ⟨i, List.mem_range.mpr inside, rfl⟩
    rw [sems, if_pos listed]
  have calls : inCall (checkSema table k).kernel = inCall k := by rw [kernel]; rfl
  have places : (abstract (checkSema table k).kernel).place = (abstract k).place := by rw [kernel]; rfl
  have steady' : Steady (checkSema table k).kernel := by
    rw [kernel]
    refine steady_reinit steady fun sem => ?_
    by_cases listed : sem ∈ (List.range n).map table.s
    · obtain ⟨i, inside, rfl⟩ := List.mem_map.mp listed
      have own := owns_s table (List.mem_range.mp inside)
      exact .inr ⟨fun t => outside own, 0, by rw [sems, if_pos listed], by decide, by decide⟩
    · by_cases here : sem = table.mutex
      · subst here
        exact .inr ⟨fun t => outside (owns_table_mutex table), 1, one, by decide, by decide⟩
      · refine .inl ?_
        rw [sems, if_neg listed]
        simp [semInit, setSem, here]
  have nobody (p : Nat) : ¬ Owns (abstract (checkSema table k).kernel) {table.mutex} ∅ p := by
    rintro (held | ⟨sem, rfl, granted⟩)
    · exact held
    · exact not_granted (outside (owns_table_mutex table)) (places ▸ granted)
  have nobody' : {t | (checkSema table k).phase t = .inside} = ∅ := by simp [checkSema]
  refine ⟨steady', ?_, fun t => ?_, thinking_apart, fun _ => by simp [checkSema],
    fun _ => .quiet fun _ => by simp [checkSema], fun _ _ _ eats => by simp [checkSema] at eats,
    fun _ _ _ signals => by simp [checkSema] at signals, fun _ => by simp [checkSema], fun _ => 0,
    fun j inside => ⟨?_, fun _ _ signals => by simp [checkSema] at signals, ?_⟩⟩
  · rw [nobody']
    refine ⟨?_, ?_, fun _ _ _ p => nobody p, fun p _ owns => absurd owns (nobody p),
      fun p held => absurd held (Set.notMem_empty p)⟩
    · rintro sem rfl
      simp [abstract, one]
    · rintro a rfl b rfl _ _
      rfl
  · rw [calls]
    exact reached.2 t
  · rw [zero j inside]
    simp [hung, checkSema]
  · simp [checkSema]

/-- A monitor built by `monitor_init` in any kernel is a Hoare monitor in every
run, and the philosophers that use it, or use semaphores, do not eat next to each other. -/
theorem hoare_monitors {D : Type} :
    (∀ (m : Monitor) (k : Kernel) (mem : Bool) (data : D) (s : State D), Reached m.owns k →
      monitorInit m k mem data = some s → ∀ events, Along (Monitors.step m) MonitorProofs.Lawful s events →
      Safe (Monitors.step m) (Good m) s events) ∧
    (∀ (m : Monitor) (k : Kernel) (mem : Bool) (s : Condvar), m.numCv = n → Reached m.owns k →
      checkCondvar m k mem = some s → ∀ events, Along (stepCondvar m) LawfulCondvar s events →
      Safe (stepCondvar m) (fun _ _ after => Apart after.monitor.data) s events) ∧
    ∀ (table : Table) (k : Kernel), Reached table.owns k → ∀ events,
      Along (stepSema table) LawfulSema (checkSema table k) events →
      Safe (stepSema table) (fun _ _ after => Apart after.meals) (checkSema table k) events :=
  ⟨fun m _ _ _ _ reached init events lawful => monitor_safe m reached.steady reached.2 init events lawful,
    fun _ _ _ _ _ reached init _ lawful => safe_of_invariant step_dining (checkCondvar_dining reached init) lawful,
    fun _ _ reached _ lawful => safe_of_invariant step_supper (checkSema_supper reached) lawful⟩

/-- `mtp` with its five conditions. -/
def mtp : Monitor :=
  ⟨0, 1, n, (· + 2), by decide, fun _ _ => by omega, fun _ _ => by omega, fun _ _ _ _ => by omega⟩

def table5 : Table := ⟨0, (· + 1), fun _ _ => by omega, fun _ _ _ _ => by omega⟩

theorem reached_boot (owns : Nat → Bool) : Reached owns (boot fun _ => 0) :=
  ⟨⟨_, fun _ => by decide, [], trivial, rfl⟩, nofun⟩

/-- One thread waits, another signals it and is suspended; two neighbours ask for
their forks. -/
theorem hoare_monitors_mtp :
    (∃ s, monitorInit mtp (boot fun _ => 0) true (0 : Nat) = some s ∧
      Safe (Monitors.step mtp) (Good mtp) s
        [.enter 1, .wait 1 0, .down 1, .enter 2, .work 2 (· + 1), .signal 2 0, .down 2, .resume 1, .leave 1,
          .resume 2, .leave 2]) ∧
    (∃ s, checkCondvar mtp (boot fun _ => 0) true = some s ∧
      Safe (stepCondvar mtp) (fun _ _ after => Apart after.monitor.data) s
        (List.replicate 6 (.phil 0) ++ List.replicate 4 (.phil 1))) ∧
    Safe (stepSema table5) (fun _ _ after => Apart after.meals) (checkSema table5 (boot fun _ => 0))
      (List.replicate 6 (.phil 0) ++ List.replicate 4 (.phil 1)) := by
  obtain ⟨monitor, condvar, sema⟩ := hoare_monitors (D := Nat)
  have phils : ∀ event ∈ List.replicate 6 (Event.phil 0) ++ List.replicate 4 (.phil 1),
      event = .phil 0 ∨ event = .phil 1 := fun event inList =>
    (List.mem_append.mp inList).imp List.eq_of_mem_replicate List.eq_of_mem_replicate
  refine ⟨⟨_, rfl, monitor mtp (boot fun _ => 0) true 0 _ (reached_boot _) rfl _ ?_⟩,
    ⟨_, rfl, condvar mtp (boot fun _ => 0) true _ rfl (reached_boot _) rfl _ ?_⟩,
    sema table5 (boot fun _ => 0) (reached_boot _) _ ?_⟩
  · refine along_of_forall (fun event inList state => ?_) _
    simp only [List.mem_cons, List.not_mem_nil, or_false] at inList
    rcases inList with rfl | rfl | rfl | rfl | rfl | rfl | rfl | rfl | rfl | rfl | rfl <;> trivial
  · refine along_of_forall (fun event inList state => ?_) _
    rcases phils event inList with rfl | rfl <;> trivial
  · refine along_of_forall (fun event inList state => ?_) _
    rcases phils event inList with rfl | rfl <;> trivial

end Ucore.CheckSyncProofs
