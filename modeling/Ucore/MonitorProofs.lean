import Ucore.Monitor
import Ucore.SemSafety

/-! A monitor's semaphores share one unit, and the thread that holds it is the
active one. Every procedure of the monitor passes the unit on. -/
namespace Ucore.MonitorProofs
open Sched SemProofs Semaphores Monitors Runs

variable {D : Type} {m : Monitor}

/-- The semaphore that a blocked thread waits for. -/
def semAt (m : Monitor) : Pc → Option Nat
  | .entering => some m.mutex
  | .suspended => some m.next
  | .waiting cv => some (m.cvSem cv)
  | _ => none

/-- A blocked thread is inside its `down`; any other is in no `down` of the monitor. -/
def CallAt (m : Monitor) (pc : Pc) (call : Option (Option Nat)) : Prop :=
  match semAt m pc with
  | some sem => call = some (some sem)
  | none => ∀ sem, call = some (some sem) → m.owns sem = false

/-- In or before the `down` of `cond_signal`. -/
def signaller : Pc → Bool
  | .signalling | .suspended => true
  | _ => false

/-- In or before the `down` of `cond_wait`. -/
def waiter (cv : Nat) : Pc → Bool
  | .yielding other | .waiting other => other = cv
  | _ => false

/-- A counter is the number of threads at some places. -/
structure Tally (pc : Nat → Pc) (here : Pc → Bool) (n : Int) : Prop where
  finite : {t | here (pc t)}.Finite
  count : n = {t | here (pc t)}.ncard

structure Hoare (m : Monitor) (s : State D) : Prop where
  steady : Steady s.kernel
  single : Single (abstract s.kernel) {sem | m.owns sem} {t | s.pc t = .active}
  calls : ∀ t, CallAt m (s.pc t) (inCall s.kernel t)
  signallers : Tally s.pc signaller s.nextCount
  waiters : ∀ cv, Tally s.pc (waiter cv) (s.count cv)
  cvs : ∀ t cv, waiter cv (s.pc t) → cv < m.numCv

/-! ## Counting threads -/

theorem Tally.enter (tally : Tally pc here n) (outside : here (pc t) = false) (inside : here new = true) :
    Tally (Function.update pc t new) here (n + 1) := by
  have set : {u | here (Function.update pc t new u)} = insert t {u | here (pc u)} := by
    ext u
    by_cases same : u = t <;> simp [same, inside]
  have fresh : t ∉ {u | here (pc u)} := by simp [outside]
  refine ⟨set ▸ tally.finite.insert t, ?_⟩
  rw [set, Set.ncard_insert_of_notMem fresh tally.finite]
  have := tally.count
  push_cast
  omega

theorem Tally.exit (tally : Tally pc here n) (inside : here (pc t) = true) (outside : here new = false) :
    Tally (Function.update pc t new) here (n - 1) := by
  have set : {u | here (Function.update pc t new u)} = {u | here (pc u)} \ {t} := by
    ext u
    by_cases same : u = t <;> simp [same, outside]
  have member : t ∈ {u | here (pc u)} := inside
  have fewer := Set.ncard_sdiff_singleton_add_one member tally.finite
  refine ⟨set ▸ tally.finite.sdiff, ?_⟩
  rw [set]
  have := tally.count
  omega

theorem Tally.stay (tally : Tally pc here n) (same : here (pc t) = here new) :
    Tally (Function.update pc t new) here n := by
  have set : {u | here (Function.update pc t new u)} = {u | here (pc u)} := by
    ext u
    by_cases this : u = t <;> simp [this, same]
  exact ⟨set ▸ tally.finite, set ▸ tally.count⟩

theorem at_update {β : Type} [DecidableEq β] (f : Nat → β) (t : Nat) (new v : β) :
    {u | Function.update f t new u = v} = if new = v then insert t {u | f u = v} else {u | f u = v} \ {t} := by
  ext u
  by_cases same : u = t <;> by_cases here : new = v <;> simp [same, here]

theorem at_update_same {β : Type} [DecidableEq β] {f : Nat → β} {t : Nat} {new v : β} (before : f t ≠ v)
    (after : new ≠ v) : {u | Function.update f t new u = v} = {u | f u = v} := by
  rw [at_update, if_neg after, Set.sdiff_singleton_eq_self]
  exact before

/-- A thread moves on, and the calls of all the others stay. -/
theorem calls_update (calls : ∀ u, CallAt m (pc u) (inCall k u))
    (others : ∀ u, u ≠ t → inCall after u = inCall k u) (mine : CallAt m new (inCall after t)) :
    ∀ u, CallAt m (Function.update pc t new u) (inCall after u) := by
  intro u
  by_cases same : u = t
  · subst same
    simpa using mine
  · simpa [same, others u same] using calls u

/-! ## The semaphores of a monitor -/

theorem owns_mutex (m : Monitor) : m.owns m.mutex := by simp [Monitor.owns]

theorem owns_next (m : Monitor) : m.owns m.next := by simp [Monitor.owns]

theorem owns_cv {m : Monitor} (inside : cv < m.numCv) : m.owns (m.cvSem cv) := by
  simp only [Monitor.owns, Bool.or_eq_true, List.any_eq_true, List.mem_range, decide_eq_true_eq]
  exact .inr ⟨cv, inside, rfl⟩

/-- Where a thread may block, what it waits for is the monitor's. -/
theorem Hoare.owned {s : State D} (hoare : Hoare m s) (at_sem : semAt m (s.pc t) = some sem) : m.owns sem := by
  cases pc : s.pc t with
  | entering =>
    obtain rfl : m.mutex = sem := by simpa [pc, semAt] using at_sem
    exact owns_mutex m
  | suspended =>
    obtain rfl : m.next = sem := by simpa [pc, semAt] using at_sem
    exact owns_next m
  | waiting cv =>
    obtain rfl : m.cvSem cv = sem := by simpa [pc, semAt] using at_sem
    exact owns_cv (hoare.cvs t cv (by simp [pc, waiter]))
  | outside | active | signalling | yielding => simp [pc, semAt] at at_sem

/-- A thread that runs is in no `down`. -/
theorem ready_free {k : Kernel} (steady : Steady k) (running : ready k t) :
    inCall k t = none ∧ (abstract k).place t = .free := by
  have outside := (ready_iff steady).mp running
  exact ⟨by simp [inCall, outside], place_free outside⟩

/-! ## Each procedure passes the unit on -/

/-- A thread whose `down` has returned is the active one. -/
theorem Hoare.finish {s : State D} (hoare : Hoare m s) (steady : Steady k)
    (single : Single (abstract k) {sem | m.owns sem} (insert t {u | s.pc u = .active}))
    (others : ∀ u, u ≠ t → inCall k u = inCall s.kernel u) (mine : inCall k t = none)
    (stops : blocked pc) (sameSide : signaller (s.pc t) = signaller pc)
    (sameCv : ∀ cv, waiter cv (s.pc t) = waiter cv pc) : Hoare m (finish { s with kernel := k } t pc) := by
  have calls : ∀ u, CallAt m (Function.update s.pc t .active u) (inCall k u) :=
    calls_update hoare.calls others (by simp [CallAt, semAt, mine])
  have single' : Single (abstract k) {sem | m.owns sem}
      {u | Function.update s.pc t .active u = .active} := by
    rwa [at_update, if_pos rfl]
  have cvs : ∀ u cv, waiter cv (Function.update s.pc t .active u) → cv < m.numCv := by
    intro u cv
    by_cases same : u = t
    · simp [same, waiter]
    · simpa [same] using hoare.cvs u cv
  cases pc with
  | entering => exact ⟨steady, single', calls, hoare.signallers.stay sameSide,
      fun cv => (hoare.waiters cv).stay (sameCv cv), cvs⟩
  | suspended => exact ⟨steady, single', calls, hoare.signallers.exit sameSide rfl,
      fun cv => (hoare.waiters cv).stay (sameCv cv), cvs⟩
  | waiting own =>
    refine ⟨steady, single', calls, hoare.signallers.stay sameSide, fun cv => ?_, cvs⟩
    by_cases same : cv = own
    · subst same
      have : Tally (Function.update s.pc t .active) (waiter cv) (s.count cv - 1) :=
        (hoare.waiters cv).exit ((sameCv cv).trans (by simp [waiter])) rfl
      simpa [Monitors.finish, goto] using this
    · have : Tally (Function.update s.pc t .active) (waiter cv) (s.count cv) :=
        (hoare.waiters cv).stay ((sameCv cv).trans (by simp [waiter, Ne.symm same]))
      simpa [Monitors.finish, goto, same] using this
  | outside | active | signalling | yielding => cases stops

/-- A thread that blocks gives nothing away. -/
theorem Hoare.downAt {s : State D} (hoare : Hoare m s) (running : ready s.kernel t)
    (idle : s.pc t ≠ .active) (at_sem : semAt m pc = some sem) (own : m.owns sem) (stops : blocked pc)
    (sameSide : signaller (s.pc t) = signaller pc) (sameCv : ∀ cv, waiter cv (s.pc t) = waiter cv pc) :
    Hoare m (downAt s t sem pc) := by
  obtain ⟨outside, free⟩ := ready_free hoare.steady running
  obtain ⟨steady, same, inCalls⟩ := hoare.steady.down running sem
  have known := hoare.steady.range sem
  have value : (abstract s.kernel).value sem = (s.kernel.sems sem).value.toNat := rfl
  by_cases positive : 0 < (s.kernel.sems sem).value
  · have positive' : 0 < (abstract s.kernel).value sem := by omega
    rw [if_pos positive] at inCalls
    rw [Semaphores.down, if_pos positive'] at same
    have single := hoare.single.take own positive' free
    rw [Monitors.downAt, if_pos positive]
    exact hoare.finish steady (same ▸ single) (fun u _ => by rw [inCalls]) (by rw [inCalls, outside])
      stops sameSide sameCv
  · rw [if_neg positive] at inCalls
    rw [Semaphores.down, if_neg (by omega)] at same
    have single : Single (Semaphores.wait (abstract s.kernel) t sem) {sem | m.owns sem}
        {u | s.pc u = .active} := hoare.single.wait free fun _ => idle
    have calls : ∀ u, CallAt m (Function.update s.pc t pc u) (inCall (Sched.down s.kernel t sem) u) :=
      calls_update hoare.calls (fun u apart => by rw [inCalls, Function.update_of_ne apart])
        (by simp [CallAt, at_sem, inCalls])
    have idle' : pc ≠ .active := by
      rintro rfl
      cases stops
    rw [Monitors.downAt, if_neg positive]
    refine ⟨steady, ?_, calls, hoare.signallers.stay sameSide,
      fun cv => (hoare.waiters cv).stay (sameCv cv), fun u cv => ?_⟩
    · simp only [goto, at_update_same idle idle']
      exact same ▸ single
    · by_cases same : u = t
      · subst same
        simpa [goto, ← sameCv cv] using hoare.cvs u cv
      · simpa [goto, same] using hoare.cvs u cv

/-- A thread that is woken takes over the unit it was handed. -/
theorem Hoare.resume {s : State D} (hoare : Hoare m s) (running : awake s.kernel t)
    (stops : blocked (s.pc t)) :
    ∃ k, Sched.resume s.kernel t = some k ∧ Hoare m (Monitors.finish { s with kernel := k } t (s.pc t)) ∧
      ∃ sem, m.owns sem ∧ (abstract s.kernel).place t = .granted sem := by
  obtain ⟨sem, at_sem⟩ : ∃ sem, semAt m (s.pc t) = some sem := by
    cases pc : s.pc t <;> simp [pc, blocked, semAt] at stops ⊢
  have own := hoare.owned at_sem
  have call := hoare.calls t
  simp only [CallAt, at_sem] at call
  obtain ⟨frame, inside, same_sem⟩ := Option.map_eq_some_iff.mp call
  cases frame with
  | sleep => cases same_sem
  | down other flags =>
    obtain rfl : other = sem := by simpa [semOf] using same_sem
    obtain ⟨k, ran, steady, same, woken, inCalls⟩ := hoare.steady.downResume running inside
    have single := hoare.single.resume own woken
    refine ⟨k, by simp only [Sched.resume, inside, ran], ?_, other, own, woken⟩
    exact hoare.finish steady (same ▸ single) (fun u apart => by rw [inCalls, Function.update_of_ne apart])
      (by rw [inCalls, Function.update_self]) stops rfl fun _ => rfl

/-- The active thread passes the unit to one of the monitor's semaphores. -/
theorem Hoare.up {s : State D} (hoare : Hoare m s) (active : s.pc t = .active) (own : m.owns sem) :
    ∃ k, Sched.up s.kernel sem = some k ∧ Steady k ∧ abstract k = Semaphores.up (abstract s.kernel) sem ∧
      inCall k = inCall s.kernel ∧
      Single (abstract k) {sem | m.owns sem} ({u | s.pc u = .active} \ {t}) := by
  have one := hoare.single.one sem own
  have value : (abstract s.kernel).value sem = (s.kernel.sems sem).value.toNat := rfl
  obtain ⟨k, ran, steady, same, inCalls⟩ := hoare.steady.up fun _ => show (s.kernel.sems sem).value < _ by omega
  exact ⟨k, ran, steady, same, inCalls, same ▸ hoare.single.up active own⟩

/-- The active thread leaves for a place outside every `down`. -/
theorem Hoare.depart {s : State D} (hoare : Hoare m s) (active : s.pc t = .active) (new : Pc) (steady : Steady k)
    (inCalls : inCall k = inCall s.kernel) (away : new ≠ .active) (free : semAt m new = none)
    (single : Single (abstract k) {sem | m.owns sem} ({u | s.pc u = .active} \ {t}))
    (signallers : Tally (Function.update s.pc t new) signaller n)
    (waiters : ∀ cv, Tally (Function.update s.pc t new) (waiter cv) (count cv))
    (cvs : ∀ cv, waiter cv new → cv < m.numCv) :
    Hoare m ⟨k, n, count, Function.update s.pc t new, s.data⟩ := by
  have mine := hoare.calls t
  simp only [CallAt, active, semAt] at mine
  refine ⟨steady, ?_, calls_update hoare.calls (fun u _ => by rw [inCalls]) ?_, signallers, waiters,
    fun u cv => ?_⟩
  · simp only [at_update, if_neg away]
    exact single
  · simpa only [CallAt, free, inCalls] using mine
  · by_cases same : u = t
    · simpa [same] using cvs cv
    · simpa [same] using hoare.cvs u cv

theorem Hoare.leave {s : State D} (hoare : Hoare m s) (active : s.pc t = .active) :
    ∃ after, Monitors.leave m s t = some after ∧ Hoare m after ∧ after.data = s.data := by
  have own : m.owns (if 0 < s.nextCount then m.next else m.mutex) := by
    split
    · exact owns_next m
    · exact owns_mutex m
  obtain ⟨k, ran, steady, -, inCalls, single⟩ := hoare.up active own
  have signallers : Tally (Function.update s.pc t .outside) signaller s.nextCount :=
    hoare.signallers.stay (by simp [active, signaller])
  have waiters (cv : Nat) : Tally (Function.update s.pc t .outside) (waiter cv) (s.count cv) :=
    (hoare.waiters cv).stay (by simp [active, waiter])
  have hoare' := hoare.depart active .outside steady inCalls nofun rfl single signallers waiters nofun
  exact ⟨_, by simp only [Monitors.leave, release, ran, Option.map_some, goto], hoare', rfl⟩

theorem Hoare.wait {s : State D} (hoare : Hoare m s) (active : s.pc t = .active) (inside : cv < m.numCv) :
    ∃ after, condWait m s t cv = some after ∧ Hoare m after ∧ after.data = s.data := by
  have own : m.owns (if 0 < s.nextCount then m.next else m.mutex) := by
    split
    · exact owns_next m
    · exact owns_mutex m
  obtain ⟨k, ran, steady, -, inCalls, single⟩ := hoare.up active own
  have signallers : Tally (Function.update s.pc t (.yielding cv)) signaller s.nextCount :=
    hoare.signallers.stay (by simp [active, signaller])
  have waiters (other : Nat) : Tally (Function.update s.pc t (.yielding cv)) (waiter other)
      (Function.update s.count cv (s.count cv + 1) other) := by
    by_cases same : other = cv
    · subst same
      simpa using (hoare.waiters other).enter (by simp [active, waiter]) (by simp [waiter])
    · simpa [same] using (hoare.waiters other).stay (by simp [active, waiter, Ne.symm same])
  have hoare' := hoare.depart active (.yielding cv) steady inCalls nofun rfl single signallers waiters
    (by simp [waiter, inside])
  exact ⟨_, by simp only [condWait, release, ran, Option.map_some, goto], hoare', rfl⟩

theorem Hoare.signal {s : State D} (hoare : Hoare m s) (active : s.pc t = .active) (inside : cv < m.numCv) :
    ∃ after, condSignal m s t cv = some after ∧ Hoare m after ∧ after.data = s.data := by
  by_cases waits : 0 < s.count cv
  · obtain ⟨k, ran, steady, -, inCalls, single⟩ := hoare.up active (owns_cv inside)
    have signallers : Tally (Function.update s.pc t .signalling) signaller (s.nextCount + 1) :=
      hoare.signallers.enter (by simp [active, signaller]) rfl
    have waiters (cv : Nat) : Tally (Function.update s.pc t .signalling) (waiter cv) (s.count cv) :=
      (hoare.waiters cv).stay (by simp [active, waiter])
    have hoare' := hoare.depart active .signalling steady inCalls nofun rfl single signallers waiters nofun
    exact ⟨_, by simp only [condSignal, waits, if_true, ran, Option.map_some, goto], hoare', rfl⟩
  · exact ⟨s, by simp only [condSignal, waits, if_false], hoare, rfl⟩

/-! ## The rest of the kernel -/

/-- The operation is on none of the semaphores that somebody owns. -/
def Elsewhere (owns : Nat → Bool) : Act → Prop
  | .up _ sem | .take _ sem | .wait _ sem | .resume _ sem => owns sem = false
  | .none => True

theorem foreign_elsewhere {owns : Nat → Bool} (away : foreign owns k event) :
    Elsewhere owns (actOf k event) := by
  cases event with
  | up pid sem =>
    by_cases running : ready k pid
    · simpa [actOf, running, Elsewhere, foreign] using away
    · simp [actOf, running, Elsewhere]
  | down pid sem =>
    by_cases running : ready k pid
    · by_cases positive : 0 < (k.sems sem).value
      · simpa [actOf, running, positive, Elsewhere, foreign] using away
      · simpa [actOf, running, positive, Elsewhere, foreign] using away
    · simp [actOf, running, Elsewhere]
  | tryDown pid sem =>
    by_cases running : ready k pid
    · by_cases positive : 0 < (k.sems sem).value
      · simpa [actOf, running, positive, Elsewhere, foreign] using away
      · simp [actOf, running, positive, Elsewhere]
    · simp [actOf, running, Elsewhere]
  | resume pid =>
    cases inside : k.frames pid with
    | none => simp [actOf, inside, Elsewhere]
    | some frame =>
      cases frame with
      | sleep => simp [actOf, inside, Elsewhere]
      | down sem flags =>
        by_cases running : awake k pid
        · simpa [actOf, inside, running, Elsewhere, foreign] using away
        · simp [actOf, inside, running, Elsewhere]
  | sleep | kill | tick | addTimer | delTimer => trivial

/-- A foreign event moves nobody into or out of a `down` of the owner's. -/
theorem foreign_calls {owns : Nat → Bool} (steady : Steady k) (away : foreign owns k event)
    (calls : inCall after = callsAfter k event) (own : owns sem) (t : Nat) :
    inCall after t = some (some sem) ↔ inCall k t = some (some sem) := by
  rw [calls]
  cases event with
  | down pid other =>
    by_cases blocks : (ready k pid && (k.sems other).value ≤ 0) = true
    · simp only [callsAfter, blocks, if_true]
      by_cases same : t = pid
      · subst same
        have running : ready k t := (Bool.and_eq_true _ _ ▸ blocks).1
        have apart : other ≠ sem := by
          rintro rfl
          simp [foreign, own] at away
        simp [(ready_free steady running).1, apart]
      · simp [same]
    · simp only [callsAfter, blocks, Bool.false_eq_true, if_false]
  | sleep pid time =>
    by_cases sleeps : (ready k pid && decide (time ≠ 0)) = true
    · simp only [callsAfter, sleeps, if_true]
      by_cases same : t = pid
      · subst same
        have running : ready k t := (Bool.and_eq_true _ _ ▸ sleeps).1
        simp [(ready_free steady running).1]
      · simp [same]
    · simp only [callsAfter, sleeps, Bool.false_eq_true, if_false]
  | resume pid =>
    by_cases running : awake k pid
    · simp only [callsAfter, running, if_true]
      by_cases same : t = pid
      · subst same
        simp only [Function.update_self, reduceCtorEq, false_iff]
        intro inside
        obtain ⟨frame, frames, same_sem⟩ := Option.map_eq_some_iff.mp inside
        cases frame with
        | sleep => cases same_sem
        | down other flags =>
          obtain rfl : other = sem := by simpa [semOf] using same_sem
          simp [foreign, frames, own] at away
      · simp [same]
    · simp only [callsAfter, running, Bool.false_eq_true, if_false]
  | up | tryDown | kill | tick | addTimer | delTimer => exact .rfl

theorem perform_single_elsewhere {a : Semaphores.State Nat Nat} {owns : Nat → Bool} {holders : Set Nat}
    (single : Single a {sem | owns sem} holders) (elsewhere : Elsewhere owns action)
    (enabled : Enabled a action) : Single (perform a action) {sem | owns sem} holders := by
  cases action with
  | none => exact single
  | up pid sem => exact single.up_other (by simpa [Elsewhere] using elsewhere)
  | take pid sem => exact single.take_other (by simpa [Elsewhere] using elsewhere)
  | wait pid sem => exact single.wait enabled.1 fun own => absurd own (by simpa [Elsewhere] using elsewhere)
  | resume pid sem => exact single.resume_other pid

theorem Hoare.kernel {s : State D} (hoare : Hoare m s) (away : foreign m.owns s.kernel event)
    (lawful : SemProofs.Lawful s.kernel event) :
    ∃ k, Sched.step s.kernel event = some k ∧ Hoare m { s with kernel := k } ∧
      abstract k = perform (abstract s.kernel) (actOf s.kernel event) ∧
      Enabled (abstract s.kernel) (actOf s.kernel event) := by
  obtain ⟨k, ran, steady, same, enabled, inCalls⟩ := hoare.steady.step lawful
  have single := perform_single_elsewhere hoare.single (foreign_elsewhere away) enabled
  have calls (t : Nat) : CallAt m (s.pc t) (inCall k t) := by
    have before := hoare.calls t
    cases at_sem : semAt m (s.pc t) with
    | some sem =>
      simp only [CallAt, at_sem] at before ⊢
      exact (foreign_calls hoare.steady away inCalls (hoare.owned at_sem) t).mpr before
    | none =>
      simp only [CallAt, at_sem] at before ⊢
      intro sem inside
      by_contra own
      have own' : m.owns sem := by simpa using own
      exact own (before sem ((foreign_calls hoare.steady away inCalls own' t).mp inside))
  exact ⟨k, ran, ⟨steady, same ▸ single, calls, hoare.signallers, hoare.waiters, hoare.cvs⟩, same, enabled⟩

/-! ## A woken thread runs next -/

/-- Woken by a signal, and not resumed yet. -/
def Woken (s : State D) (cv w : Nat) : Prop := s.pc w = .waiting cv ∧ awake s.kernel w

/-- While a signal is under way nobody is active and the data stay, and what ends
it is the thread that was signalled becoming active. A signal that finds its
waiter before the `down` leaves the unit in the semaphore for it. -/
structure Next (m : Monitor) (before after : State D) : Prop where
  woken : ∀ cv w, Woken before cv w → (∀ u, before.pc u ≠ .active) ∧ after.data = before.data ∧
    (Woken after cv w ∨ after.pc w = .active)
  posted : ∀ cv < m.numCv, 0 < (before.kernel.sems (m.cvSem cv)).value →
    (∀ u, before.pc u ≠ .active) ∧ after.data = before.data ∧
      (0 < (after.kernel.sems (m.cvSem cv)).value ∨
        ∃ w, before.pc w = .yielding cv ∧ after.pc w = .active)

theorem Hoare.granted {s : State D} (hoare : Hoare m s) (waits : s.pc w = .waiting cv) :
    awake s.kernel w ↔ (abstract s.kernel).place w = .granted (m.cvSem cv) := by
  have call := hoare.calls w
  simp only [waits, CallAt, semAt] at call
  obtain ⟨frame, inside, same_sem⟩ := Option.map_eq_some_iff.mp call
  have state := hoare.steady.calls w
  cases frame with
  | sleep => cases same_sem
  | down sem flags =>
    obtain rfl : sem = m.cvSem cv := by simpa [semOf] using same_sem
    rw [inside] at state
    rcases state with ⟨state, -⟩ | ⟨state, -⟩ <;> simp [awake, abstract, place, inside, state]

/-- A thread that owns the unit leaves none for anybody else. -/
theorem Hoare.sole {s : State D} (hoare : Hoare m s) (own : m.owns sem)
    (granted : (abstract s.kernel).place w = .granted sem) :
    (∀ u, s.pc u ≠ .active) ∧ (∀ other, m.owns other → (s.kernel.sems other).value = 0) ∧
      ∀ u other, m.owns other → (abstract s.kernel).place u = .granted other → u = w := by
  have owns : Owns (abstract s.kernel) {sem | m.owns sem} {t | s.pc t = .active} w := .inr ⟨sem, own, granted⟩
  refine ⟨fun u active => ?_, fun other own' => ?_, fun u other own' granted' => ?_⟩
  · obtain rfl := hoare.single.owner u w (.inl active) owns
    exact (hoare.single.holding u active sem own).2 granted
  · have range := hoare.steady.range other
    by_contra positive
    have positive' : 0 < (abstract s.kernel).value other := by
      simp only [abstract]
      omega
    exact hoare.single.free other own' positive' w owns
  · exact hoare.single.owner u w (.inr ⟨other, own', granted'⟩) owns

/-- A unit in one semaphore leaves none for anybody else. -/
theorem Hoare.lone {s : State D} (hoare : Hoare m s) (own : m.owns sem)
    (positive : 0 < (s.kernel.sems sem).value) :
    (∀ u, s.pc u ≠ .active) ∧ (∀ other, m.owns other → other ≠ sem → (s.kernel.sems other).value = 0) ∧
      ∀ u other, m.owns other → (abstract s.kernel).place u ≠ .granted other := by
  have positive' : 0 < (abstract s.kernel).value sem := by simpa [abstract] using positive
  have none_owns := hoare.single.free sem own positive'
  refine ⟨fun u active => none_owns u (.inl active), fun other own' apart => ?_,
    fun u other own' granted => none_owns u (.inr ⟨other, own', granted⟩)⟩
  have range := hoare.steady.range other
  by_contra more
  have more' : 0 < (abstract s.kernel).value other := by
    simp only [abstract]
    omega
  exact apart (hoare.single.alone other own' sem own more' positive')

theorem Next.refl {s : State D} (hoare : Hoare m s) : Next m s s := by
  refine ⟨fun cv w woken => ?_, fun cv inside positive => ?_⟩
  · have own := owns_cv (hoare.cvs w cv (by simp [woken.1, waiter]))
    exact ⟨(hoare.sole own ((hoare.granted woken.1).mp woken.2)).1, rfl, .inl woken⟩
  · exact ⟨(hoare.lone (owns_cv inside) positive).1, rfl, .inl positive⟩

/-- No signal is under way while a thread is active. -/
theorem Next.active {before after : State D} (hoare : Hoare m before) (active : before.pc t = .active) :
    Next m before after := by
  refine ⟨fun cv w woken => ?_, fun cv inside positive => ?_⟩
  · have own := owns_cv (hoare.cvs w cv (by simp [woken.1, waiter]))
    exact absurd active ((hoare.sole own ((hoare.granted woken.1).mp woken.2)).1 t)
  · exact absurd active ((hoare.lone (owns_cv inside) positive).1 t)

theorem downAt_blocks {s : State D} (hoare : Hoare m s) (running : ready s.kernel t)
    (zero : (s.kernel.sems sem).value = 0) (pc : Pc) :
    (downAt s t sem pc).pc = Function.update s.pc t pc ∧ (downAt s t sem pc).data = s.data ∧
      abstract (downAt s t sem pc).kernel = Semaphores.wait (abstract s.kernel) t sem := by
  obtain ⟨-, same, -⟩ := hoare.steady.down running sem
  have value : (abstract s.kernel).value sem = 0 := by simp [abstract, zero]
  rw [Semaphores.down, if_neg (by omega)] at same
  have blocks : downAt s t sem pc = goto { s with kernel := Sched.down s.kernel t sem } t pc := by
    simp [Monitors.downAt, zero]
  rw [blocks]
  exact ⟨rfl, rfl, same⟩

theorem downAt_next {s : State D} (hoare : Hoare m s) (after : Hoare m (downAt s t sem pc))
    (running : ready s.kernel t) (own : m.owns sem)
    (from_cv : ∀ cv < m.numCv, sem = m.cvSem cv → s.pc t = .yielding cv ∧ pc = .waiting cv) :
    Next m s (downAt s t sem pc) := by
  have free := (ready_free hoare.steady running).2
  refine ⟨fun cv w woken => ?_, fun cv inside positive => ?_⟩
  · have own_cv := owns_cv (hoare.cvs w cv (by simp [woken.1, waiter]))
    have granted := (hoare.granted woken.1).mp woken.2
    obtain ⟨quiet, zero, -⟩ := hoare.sole own_cv granted
    have apart : w ≠ t := by
      rintro rfl
      simp [free] at granted
    obtain ⟨pcs, data, same⟩ := downAt_blocks hoare running (zero sem own) pc
    have waits : (downAt s t sem pc).pc w = .waiting cv := by simpa [pcs, apart] using woken.1
    refine ⟨quiet, data, .inl ⟨waits, (after.granted waits).mpr ?_⟩⟩
    simpa [same, Semaphores.wait, apart] using granted
  · obtain ⟨quiet, zero, -⟩ := hoare.lone (owns_cv inside) positive
    by_cases this : sem = m.cvSem cv
    · subst this
      obtain ⟨yields, rfl⟩ := from_cv cv inside rfl
      refine ⟨quiet, ?_, .inr ⟨t, yields, ?_⟩⟩ <;> simp [Monitors.downAt, positive, Monitors.finish, goto]
    · obtain ⟨-, data, same⟩ := downAt_blocks hoare running (zero sem own this) pc
      have value : (abstract (downAt s t sem pc).kernel).value (m.cvSem cv) =
          (abstract s.kernel).value (m.cvSem cv) := by
        rw [same]
        rfl
      exact ⟨quiet, data, .inl (by simp only [abstract] at value; omega)⟩

theorem resume_next {s : State D} (hoare : Hoare m s) (own : m.owns sem)
    (granted : (abstract s.kernel).place t = .granted sem) (k : Kernel) :
    Next m s (Monitors.finish { s with kernel := k } t (s.pc t)) := by
  have pcs : (Monitors.finish { s with kernel := k } t (s.pc t)).pc t = .active := by
    cases s.pc t <;> simp [Monitors.finish, goto]
  have data : (Monitors.finish { s with kernel := k } t (s.pc t)).data = s.data := by
    cases s.pc t <;> rfl
  refine ⟨fun cv w woken => ?_, fun cv inside positive => ?_⟩
  · have own_cv := owns_cv (hoare.cvs w cv (by simp [woken.1, waiter]))
    obtain ⟨quiet, -, sole⟩ := hoare.sole own_cv ((hoare.granted woken.1).mp woken.2)
    obtain rfl := sole t sem own granted
    exact ⟨quiet, data, .inr pcs⟩
  · exact absurd granted ((hoare.lone (owns_cv inside) positive).2.2 t sem own)

/-- An operation elsewhere leaves the owner's units where they are. -/
theorem perform_elsewhere {a : Semaphores.State Nat Nat} {owns : Nat → Bool} (sound : Sound a)
    (elsewhere : Elsewhere owns action) (enabled : Enabled a action) (own : owns sem) :
    (perform a action).value sem = a.value sem ∧
      ∀ w, a.place w = .granted sem → (perform a action).place w = .granted sem := by
  have apart (other : Nat) (away : owns other = false) : sem ≠ other := by
    rintro rfl
    simp [own] at away
  cases action with
  | up pid other =>
    have away := apart other elsewhere
    cases waits : a.queue other with
    | nil => exact ⟨by simp [perform, Semaphores.up, waits, post, away], fun w granted => by
        simpa [perform, Semaphores.up, waits, post] using granted⟩
    | cons first rest =>
      have waiting : a.place first = .waiting other := (sound.queued other first).mp (by simp [waits])
      refine ⟨by simp [perform, Semaphores.up, waits, grant], fun w granted => ?_⟩
      have this : w ≠ first := by
        rintro rfl
        simp [waiting] at granted
      simpa [perform, Semaphores.up, waits, grant, this] using granted
  | take pid other => exact ⟨by simp [perform, Semaphores.take, apart other elsewhere], fun w => id⟩
  | wait pid other =>
    refine ⟨rfl, fun w granted => ?_⟩
    have this : w ≠ pid := by
      rintro rfl
      simp [enabled.1] at granted
    simpa [perform, Semaphores.wait, this] using granted
  | resume pid other =>
    refine ⟨rfl, fun w granted => ?_⟩
    have this : w ≠ pid := by
      rintro rfl
      have woken : a.place w = .granted other := enabled
      simp only [woken, Place.granted.injEq] at granted
      exact apart other elsewhere granted.symm
    simpa [perform, Semaphores.resume, this] using granted
  | none => exact ⟨rfl, fun _ => id⟩

theorem kernel_next {s : State D} (hoare : Hoare m s) (after : Hoare m { s with kernel := k })
    (away : foreign m.owns s.kernel event)
    (same : abstract k = perform (abstract s.kernel) (actOf s.kernel event))
    (enabled : Enabled (abstract s.kernel) (actOf s.kernel event)) : Next m s { s with kernel := k } := by
  have kept {sem : Nat} (own : m.owns sem) :=
    perform_elsewhere hoare.steady.sound (foreign_elsewhere away) enabled own
  refine ⟨fun cv w woken => ?_, fun cv inside positive => ?_⟩
  · have own := owns_cv (hoare.cvs w cv (by simp [woken.1, waiter]))
    have granted := (hoare.granted woken.1).mp woken.2
    refine ⟨(hoare.sole own granted).1, rfl, .inl ⟨woken.1, (after.granted woken.1).mpr ?_⟩⟩
    exact same ▸ (kept own).2 w granted
  · have value := (kept (owns_cv inside)).1
    rw [← same] at value
    refine ⟨(hoare.lone (owns_cv inside) positive).1, rfl, .inl ?_⟩
    simp only [abstract] at value
    simp only
    omega

/-! ## Whole runs -/

structure Good (m : Monitor) (before : State D) (event : Event D) (after : State D) : Prop where
  oneActive : ∀ p q, after.pc p = .active → after.pc q = .active → p = q
  nextCount : after.nextCount = {t | signaller (after.pc t)}.ncard
  count : ∀ cv, after.count cv = {t | waiter cv (after.pc t)}.ncard
  /-- `cond_signal` with a waiter wakes one, or leaves the unit for one that is
  about to block. -/
  signals : ∀ t cv, event = .signal t cv → ready before.kernel t → before.pc t = .active →
    cv < m.numCv → 0 < before.count cv → after.data = before.data ∧
      ((∃ w, Woken after cv w) ∨ 0 < (after.kernel.sems (m.cvSem cv)).value)
  next : Next m before after

/-- The rest of the kernel keeps to its own conditions. -/
def Lawful (s : State D) : Event D → Prop
  | .kernel event => SemProofs.Lawful s.kernel event
  | _ => True

theorem Hoare.good {before after : State D} (hoare : Hoare m after) (next : Next m before after)
    (signals : ∀ t cv, event = .signal t cv → ready before.kernel t → before.pc t = .active →
      cv < m.numCv → 0 < before.count cv → after.data = before.data ∧
        ((∃ w, Woken after cv w) ∨ 0 < (after.kernel.sems (m.cvSem cv)).value)) :
    Good m before event after :=
  ⟨fun p q activeP activeQ => hoare.single.owner p q (.inl activeP) (.inl activeQ),
    hoare.signallers.count, fun cv => (hoare.waiters cv).count, signals, next⟩

/-- Who waits for a condition variable's semaphore waits for the condition. -/
theorem Hoare.waits {s : State D} (hoare : Hoare m s) (inside : cv < m.numCv)
    (call : inCall s.kernel w = some (some (m.cvSem cv))) : s.pc w = .waiting cv := by
  have at_pc := hoare.calls w
  cases pc : s.pc w with
  | waiting other =>
    simp only [pc, CallAt, semAt, call, Option.some.injEq] at at_pc
    have inside' := hoare.cvs w other (by simp [pc, waiter])
    rw [m.cv_cv cv inside other inside' at_pc]
  | entering =>
    simp only [pc, CallAt, semAt, call, Option.some.injEq] at at_pc
    exact absurd at_pc (m.cv_mutex cv inside)
  | suspended =>
    simp only [pc, CallAt, semAt, call, Option.some.injEq] at at_pc
    exact absurd at_pc (m.cv_next cv inside)
  | outside | active | signalling | yielding =>
    simp only [pc, CallAt, semAt] at at_pc
    exact absurd (owns_cv inside) (by simp [at_pc _ call])

theorem signal_wakes {s after : State D} (hoare : Hoare m s) (hoare' : Hoare m after)
    (active : s.pc t = .active) (inside : cv < m.numCv) (waits : 0 < s.count cv)
    (ran : condSignal m s t cv = some after) :
    (∃ w, Woken after cv w) ∨ 0 < (after.kernel.sems (m.cvSem cv)).value := by
  obtain ⟨k, upped, -, same, inCalls, -⟩ := hoare.up active (owns_cv inside)
  obtain rfl : goto { s with kernel := k, nextCount := s.nextCount + 1 } t .signalling = after := by
    simpa [condSignal, waits, upped] using ran
  cases queue : (abstract s.kernel).queue (m.cvSem cv) with
  | nil =>
    have value := congrFun (congrArg Semaphores.State.value same) (m.cvSem cv)
    simp only [Semaphores.up, queue, post, Function.update_self] at value
    refine .inr ?_
    simp only [abstract] at value
    simp only [goto]
    omega
  | cons first rest =>
    have waiting : (abstract s.kernel).place first = .waiting (m.cvSem cv) :=
      (hoare.steady.sound.queued _ first).mp (by simp [queue])
    obtain ⟨frame, -⟩ := hoare.steady.waiting (show first ∈ (s.kernel.sems (m.cvSem cv)).waitQueue from
      (hoare.steady.sound.queued _ first).mpr waiting)
    have pc := hoare.waits inside (show inCall s.kernel first = _ by simp [inCall, frame, semOf])
    have apart : first ≠ t := by
      rintro rfl
      simp [active] at pc
    have pc' : (goto { s with kernel := k, nextCount := s.nextCount + 1 } t .signalling).pc first =
        .waiting cv := by
      simpa [goto, apart] using pc
    refine .inl ⟨first, pc', (hoare'.granted pc').mpr ?_⟩
    simp [goto, same, Semaphores.up, queue, grant]

/-- Every event of a monitor keeps its invariant. -/
theorem step_hoare (s : State D) (event : Event D) (hoare : Hoare m s) (lawful : Lawful s event) :
    ∃ after, Monitors.step m s event = some after ∧ Good m s event after ∧ Hoare m after := by
  have idle (event : Event D) (unsignalled : ∀ t cv, event ≠ .signal t cv) : Good m s event s :=
    hoare.good (.refl hoare) fun t cv same => absurd same (unsignalled t cv)
  cases event with
  | enter t =>
    by_cases enabled : ready s.kernel t ∧ s.pc t = .outside
    · have hoare' : Hoare m (downAt s t m.mutex .entering) :=
        hoare.downAt enabled.1 (by simp [enabled.2]) rfl (owns_mutex m) rfl
          (by simp [enabled.2, signaller]) (by simp [enabled.2, waiter])
      have next := downAt_next hoare hoare' enabled.1 (owns_mutex m)
        fun cv inside same => absurd same.symm (m.cv_mutex cv inside)
      exact ⟨_, by simp [Monitors.step, enabled], hoare'.good next nofun, hoare'⟩
    · exact ⟨s, by rw [Monitors.step, if_neg (by simpa using enabled)], idle _ nofun, hoare⟩
  | leave t =>
    by_cases enabled : ready s.kernel t ∧ s.pc t = .active
    · obtain ⟨after, ran, hoare', -⟩ := hoare.leave enabled.2
      exact ⟨after, by simpa [Monitors.step, enabled] using ran,
        hoare'.good (.active hoare enabled.2) nofun, hoare'⟩
    · exact ⟨s, by rw [Monitors.step, if_neg (by simpa using enabled)], idle _ nofun, hoare⟩
  | wait t cv =>
    by_cases enabled : (ready s.kernel t ∧ s.pc t = .active) ∧ cv < m.numCv
    · obtain ⟨after, ran, hoare', -⟩ := hoare.wait enabled.1.2 enabled.2
      exact ⟨after, by simpa [Monitors.step, enabled] using ran,
        hoare'.good (.active hoare enabled.1.2) nofun, hoare'⟩
    · exact ⟨s, by rw [Monitors.step, if_neg (by simpa using enabled)], idle _ nofun, hoare⟩
  | signal t cv =>
    by_cases enabled : (ready s.kernel t ∧ s.pc t = .active) ∧ cv < m.numCv
    · obtain ⟨after, ran, hoare', data⟩ := hoare.signal enabled.1.2 enabled.2
      refine ⟨after, by simpa [Monitors.step, enabled] using ran,
        hoare'.good (.active hoare enabled.1.2) ?_, hoare'⟩
      rintro _ _ ⟨⟩ - - inside waits
      exact ⟨data, signal_wakes hoare hoare' enabled.1.2 inside waits ran⟩
    · refine ⟨s, by rw [Monitors.step, if_neg (by simpa using enabled)], hoare.good (.refl hoare) ?_, hoare⟩
      rintro _ _ ⟨⟩ running active inside -
      exact absurd ⟨⟨running, active⟩, inside⟩ enabled
  | work t f =>
    by_cases enabled : ready s.kernel t ∧ s.pc t = .active
    · have hoare' : Hoare m { s with data := f s.data } :=
        ⟨hoare.steady, hoare.single, hoare.calls, hoare.signallers, hoare.waiters, hoare.cvs⟩
      exact ⟨_, by simp [Monitors.step, enabled], hoare'.good (.active hoare enabled.2) nofun, hoare'⟩
    · exact ⟨s, by rw [Monitors.step, if_neg (by simpa using enabled)], idle _ nofun, hoare⟩
  | down t =>
    by_cases running : ready s.kernel t
    · cases pc : s.pc t with
      | signalling =>
        have hoare' : Hoare m (downAt s t m.next .suspended) :=
          hoare.downAt running (by simp [pc]) rfl (owns_next m) rfl (by simp [pc, signaller])
            (by simp [pc, waiter])
        have next := downAt_next hoare hoare' running (owns_next m)
          fun cv inside same => absurd same.symm (m.cv_next cv inside)
        exact ⟨_, by simp [Monitors.step, running, pc], hoare'.good next nofun, hoare'⟩
      | yielding cv =>
        have inside := hoare.cvs t cv (by simp [pc, waiter])
        have hoare' : Hoare m (downAt s t (m.cvSem cv) (.waiting cv)) :=
          hoare.downAt running (by simp [pc]) rfl (owns_cv inside) rfl (by simp [pc, signaller])
            (by simp [pc, waiter])
        have next := downAt_next hoare hoare' running (owns_cv inside) fun other inside' same => by
          obtain rfl := m.cv_cv cv inside other inside' same
          exact ⟨pc, rfl⟩
        exact ⟨_, by simp [Monitors.step, running, pc], hoare'.good next nofun, hoare'⟩
      | outside | entering | active | suspended | waiting =>
        exact ⟨s, by simp [Monitors.step, running, pc], idle _ nofun, hoare⟩
    · exact ⟨s, by simp [Monitors.step, running], idle _ nofun, hoare⟩
  | resume t =>
    by_cases enabled : awake s.kernel t ∧ blocked (s.pc t)
    · obtain ⟨k, ran, hoare', sem, own, granted⟩ := hoare.resume enabled.1 enabled.2
      exact ⟨_, by simp [Monitors.step, enabled, ran], hoare'.good (resume_next hoare own granted k) nofun,
        hoare'⟩
    · exact ⟨s, by rw [Monitors.step, if_neg (by simpa using enabled)], idle _ nofun, hoare⟩
  | kernel event =>
    by_cases away : foreign m.owns s.kernel event
    · obtain ⟨k, ran, hoare', same, enabled⟩ := hoare.kernel away lawful
      exact ⟨_, by simp [Monitors.step, away, ran],
        hoare'.good (kernel_next hoare hoare' away same enabled) nofun, hoare'⟩
    · exact ⟨s, by simp [Monitors.step, away], idle _ nofun, hoare⟩

/-! ## Initialisation -/

/-- Semaphores that nobody is inside a `down` of may be initialised anew. -/
theorem steady_reinit (steady : Steady k) {sems : Nat → Semaphore}
    (new : ∀ sem, sems sem = k.sems sem ∨ (∀ t, inCall k t ≠ some (some sem)) ∧
      ∃ value, sems sem = ⟨value, []⟩ ∧ 0 ≤ value ∧ value < 2 ^ 31) :
    Steady { k with sems := sems } := by
  obtain ⟨now, due, timely⟩ := steady.timers
  have queue (sem : Nat) : (sems sem).waitQueue = (k.sems sem).waitQueue := by
    rcases new sem with same | ⟨nobody, value, same, -⟩
    · rw [same]
    · rw [same]
      refine (List.eq_nil_iff_forall_not_mem.mpr fun t waits => nobody t ?_).symm
      simp [inCall, (steady.waiting waits).1, semOf]
  refine ⟨steady.calls, ⟨fun sem t => ?_, fun sem => ?_, fun sem positive => ?_⟩, fun sem => ?_,
    ⟨now, due, timely.same rfl⟩, steady.owner, steady.stack⟩
  · simp only [abstract, queue]
    exact steady.sound.queued sem t
  · simp only [abstract, queue]
    exact steady.sound.distinct sem
  · rcases new sem with same | ⟨-, value, same, -⟩
    · simp only [abstract, same] at positive ⊢
      exact steady.sound.empty sem positive
    · simp [abstract, same]
  · rcases new sem with same | ⟨-, value, same, range⟩
    · simpa only [same] using steady.range sem
    · simpa only [same] using range

theorem foldl_semInit (k : Kernel) (cvSem : Nat → Nat) (cvs : List Nat) :
    cvs.foldl (fun k cv => semInit k (cvSem cv) 0) k =
      { k with sems := fun sem => if sem ∈ cvs.map cvSem then ⟨0, []⟩ else k.sems sem } := by
  induction cvs generalizing k with
  | nil => simp
  | cons cv cvs ih =>
    rw [List.foldl_cons, ih]
    simp only [semInit, setSem, List.map_cons, List.mem_cons, Kernel.mk.injEq, true_and]
    funext sem
    by_cases here : sem = cvSem cv <;> by_cases there : sem ∈ cvs.map cvSem <;> simp [here, there]

/-- Nobody is granted a unit of a semaphore that no `down` is about. -/
theorem not_granted (outside : inCall k p ≠ some (some sem)) : (abstract k).place p ≠ .granted sem := by
  intro granted
  refine outside ?_
  cases frame : k.frames p with
  | none => simp [abstract, place, frame] at granted
  | some inner =>
    cases inner with
    | sleep => simp [abstract, place, frame] at granted
    | down other flags =>
      by_cases asleep : (k.procs p).state = .sleeping <;> simp [abstract, place, frame, asleep] at granted
      simp [inCall, frame, semOf, granted]

/-- A monitor starts with its unit in `mutex`. -/
theorem monitorInit_hoare {s : State D} (steady : Steady k)
    (fresh : ∀ t sem, inCall k t = some (some sem) → m.owns sem = false)
    (init : monitorInit m k mem data = some s) : Hoare m s := by
  simp only [monitorInit, Option.ite_none_right_eq_some, Option.some.injEq] at init
  obtain ⟨-, rfl⟩ := init
  have owned {cv : Nat} (inside : cv < m.numCv) : m.owns (m.cvSem cv) := owns_cv inside
  have sems (sem : Nat) : ((List.range m.numCv).foldl (fun k cv => semInit k (m.cvSem cv) 0)
      (semInit (semInit k m.mutex 1) m.next 0)).sems sem =
        if m.owns sem then ⟨if sem = m.mutex then 1 else 0, []⟩ else k.sems sem := by
    rw [foldl_semInit]
    simp only [List.mem_map, List.mem_range]
    by_cases cvs : ∃ cv < m.numCv, m.cvSem cv = sem
    · obtain ⟨cv, inside, rfl⟩ := cvs
      have apart := m.cv_mutex cv inside
      simp [owned inside, apart, show ∃ a < m.numCv, m.cvSem a = m.cvSem cv from ⟨cv, inside, rfl⟩]
    · rw [if_neg (by simpa using cvs)]
      have others : m.owns sem = (decide (sem = m.mutex) || decide (sem = m.next)) := by
        simpa [Monitor.owns] using fun cv inside same => absurd ⟨cv, inside, same⟩ cvs
      have apart := m.mutex_next
      by_cases next : sem = m.next
      · subst next
        simp [semInit, setSem, others, apart.symm]
      · by_cases mutex : sem = m.mutex
        · subst mutex
          simp [semInit, setSem, others, apart]
        · simp [semInit, setSem, others, next, mutex]
  have whole : (List.range m.numCv).foldl (fun k cv => semInit k (m.cvSem cv) 0)
      (semInit (semInit k m.mutex 1) m.next 0) =
        { k with sems := fun sem => if m.owns sem then ⟨if sem = m.mutex then 1 else 0, []⟩ else k.sems sem } := by
    have same := funext sems
    rw [foldl_semInit] at same ⊢
    exact congrArg (fun sems => ({ k with sems := sems } : Kernel)) same
  rw [whole]
  have nobody (p : Nat) (sem : Nat) (own : m.owns sem) : (abstract k).place p ≠ .granted sem :=
    not_granted fun inside => Bool.false_ne_true ((fresh p sem inside).symm.trans own)
  have tally (here : Pc → Bool) (outside : here .outside = false) : Tally (fun _ => .outside) here 0 := by
    have none_here : {t : Nat | here ((fun _ => Pc.outside) t)} = ∅ := by simp [outside]
    exact ⟨none_here ▸ Set.finite_empty, by simp [outside]⟩
  refine ⟨steady_reinit steady fun sem => ?_, ⟨fun sem own => ?_, fun a ownA b ownB posA posB => ?_,
    fun sem own _ p owns => ?_, fun p q owns => ?_, fun p held => by simp at held⟩, fun t => ?_, tally _ rfl,
    fun cv => tally _ rfl, fun t cv waits => by simp [waiter] at waits⟩
  · by_cases own : m.owns sem
    · refine .inr ⟨fun t inside => ?_, if sem = m.mutex then 1 else 0, by simp [own], ?_, ?_⟩
      · exact Bool.false_ne_true ((fresh t sem inside).symm.trans own)
      all_goals split <;> omega
    · exact .inl (by simp [own])
  · simp only [abstract, show m.owns sem = true from own, if_true]
    split <;> simp
  · simp only [abstract, show m.owns a = true from ownA, show m.owns b = true from ownB, if_true] at posA posB
    by_cases here : a = m.mutex <;> by_cases there : b = m.mutex <;> simp_all
  · rcases owns with active | ⟨sem, own, granted⟩
    · cases active
    · exact nobody p sem own granted
  · rcases owns with active | ⟨sem, own, granted⟩
    · cases active
    · exact absurd granted (nobody p sem own)
  · exact fresh t

/-- From `monitor_init` on, one thread is active at a time, the counters count,
and a signalled thread runs next. -/
theorem monitor_safe (m : Monitor) {k : Kernel} {s : State D} (steady : Steady k)
    (fresh : ∀ t sem, inCall k t = some (some sem) → m.owns sem = false)
    (init : monitorInit m k mem data = some s) (events : List (Event D))
    (lawful : Along (Monitors.step m) Lawful s events) : Safe (Monitors.step m) (Good m) s events :=
  safe_of_invariant step_hoare (monitorInit_hoare steady fresh init) lawful

end Ucore.MonitorProofs
