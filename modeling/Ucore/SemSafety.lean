import Ucore.SemProofs

/-! What the semaphores promise over whole runs. The history counts what each
semaphore has been given and has given out, and says when a process went to
wait and which processes are between a completed `down` and their next `up`. -/
namespace Ucore.SemSafety
open Sched SemProofs Semaphores Runs

structure Traced where
  kernel : Kernel
  ups : Nat → Nat
  downs : Nat → Nat
  inside : Nat → Nat → Bool
  clock : Nat
  since : Nat → Nat

def mark (inside : Nat → Nat → Bool) (sem pid : Nat) (entered : Bool) : Nat → Nat → Bool :=
  fun other process => if other = sem ∧ process = pid then entered else inside other process

def record (traced : Traced) (k : Kernel) : Act → Traced
  | .up pid sem => { traced with
      kernel := k
      ups := Function.update traced.ups sem (traced.ups sem + 1)
      inside := mark traced.inside sem pid false }
  | .take pid sem | .resume pid sem => { traced with
      kernel := k
      downs := Function.update traced.downs sem (traced.downs sem + 1)
      inside := mark traced.inside sem pid true }
  | .wait pid _ => { traced with
      kernel := k
      clock := traced.clock + 1
      since := Function.update traced.since pid traced.clock }
  | .none => { traced with kernel := k }

def step (traced : Traced) (event : Event) : Option Traced :=
  (Sched.step traced.kernel event).map fun k => record traced k (actOf traced.kernel event)

def boot (initial : Nat → Int) : Traced :=
  ⟨Sched.boot initial, fun _ => 0, fun _ => 0, fun _ _ => false, 0, fun _ => 0⟩

/-- Asleep inside `down`. -/
def Waiting (k : Kernel) (sem pid : Nat) : Prop :=
  ∃ flags, k.frames pid = some (.down sem flags) ∧ (k.procs pid).state = .sleeping

/-- Woken inside `down` and not resumed yet. -/
def Handed (k : Kernel) (sem pid : Nat) : Prop :=
  ∃ flags, k.frames pid = some (.down sem flags) ∧ (k.procs pid).state = .runnable

/-- An `up` with waiters wakes the one that has waited longest, and nothing else
changes for any other process. -/
def HandsOver (before after : Traced) (sem : Nat) : Prop :=
  (∃ pid, Waiting before.kernel sem pid) → ∃ first, Waiting before.kernel sem first ∧
    Handed after.kernel sem first ∧
    (after.kernel.sems sem).value = (before.kernel.sems sem).value ∧
    ∀ other, other ≠ first → after.kernel.procs other = before.kernel.procs other ∧
      after.kernel.frames other = before.kernel.frames other ∧
      (Waiting before.kernel sem other → before.since first < before.since other)

structure Good (initial : Nat → Int) (before : Traced) (event : Event) (after : Traced) : Prop where
  nonneg : ∀ sem, 0 ≤ (after.kernel.sems sem).value
  empty : ∀ sem, 0 < (after.kernel.sems sem).value → (after.kernel.sems sem).waitQueue = []
  conserved : ∀ sem, initial sem + after.ups sem = (after.kernel.sems sem).value + after.downs sem +
    {pid | Handed after.kernel sem pid}.ncard
  handsOver : ∀ pid sem, event = .up pid sem → ready before.kernel pid → HandsOver before after sem

/-- The semaphore is used as `down`; section; `up`. -/
def Sections (sem : Nat) (traced : Traced) : Event → Prop
  | .up pid other => other = sem → ready traced.kernel pid → traced.inside sem pid
  | .down pid other | .tryDown pid other => other = sem → ready traced.kernel pid → ¬ traced.inside sem pid
  | _ => True

/-- At most one process is in the section. -/
def Exclusive (sem : Nat) (traced : Traced) : Prop :=
  ∀ p q, traced.inside sem p → traced.inside sem q → p = q

/-! ## Counting -/

theorem waiting_iff {k : Kernel} : Waiting k sem pid ↔ (abstract k).place pid = .waiting sem := by
  simp only [Waiting, abstract, place]
  cases frame : k.frames pid with
  | none => simp
  | some inner =>
    cases inner with
    | sleep => simp
    | down other flags =>
      by_cases asleep : (k.procs pid).state = .sleeping <;> simp [asleep]

theorem handed_iff (steady : Steady k) : Handed k sem pid ↔ (abstract k).place pid = .granted sem := by
  have call := steady.calls pid
  simp only [Handed, abstract, place]
  cases frame : k.frames pid with
  | none => simp
  | some inner =>
    cases inner with
    | sleep => simp
    | down other flags =>
      rw [frame] at call
      rcases call with ⟨state, -⟩ | ⟨state, -⟩ <;> simp [state]

theorem handed_eq (steady : Steady k) (sem : Nat) :
    {pid | Handed k sem pid} = granted (abstract k) sem := by
  ext pid
  exact handed_iff steady

/-- The units an operation puts into a semaphore. -/
def given (sem : Nat) : Act → Nat
  | .up _ other => if sem = other then 1 else 0
  | _ => 0

/-- The units an operation takes out for good. -/
def taken (sem : Nat) : Act → Nat
  | .take _ other | .resume _ other => if sem = other then 1 else 0
  | _ => 0

/-- Every unit that is given is taken, or nobody's yet. -/
theorem perform_units {s : State Nat Nat} (sound : Sound s) (finite : ∀ sem, (granted s sem).Finite)
    (enabled : Enabled s action) (sem : Nat) :
    (granted (perform s action) sem).Finite ∧
      units (perform s action) sem + taken sem action = units s sem + given sem action := by
  cases action with
  | up pid other =>
    obtain ⟨more, finite'⟩ := up_units sound (finite sem) other
    exact ⟨finite', more⟩
  | take pid other => exact ⟨finite sem, take_units enabled.2 sem⟩
  | wait pid other =>
    refine ⟨?_, by simpa [taken, given, perform] using wait_units enabled.1 other sem⟩
    rw [perform, granted_wait s other enabled.1]
    exact finite sem
  | resume pid other =>
    refine ⟨?_, resume_units (finite other) enabled sem⟩
    rw [perform, granted_resume]
    exact (finite sem).sdiff
  | none => exact ⟨finite sem, rfl⟩

structure Accounted (initial : Nat → Int) (traced : Traced) : Prop where
  steady : Steady traced.kernel
  finite : ∀ sem, (granted (abstract traced.kernel) sem).Finite
  count : ∀ sem, initial sem + traced.ups sem = units (abstract traced.kernel) sem + traced.downs sem
  order : ∀ sem, (traced.kernel.sems sem).waitQueue.Pairwise fun a b => traced.since a < traced.since b
  past : ∀ sem, ∀ pid ∈ (traced.kernel.sems sem).waitQueue, traced.since pid < traced.clock

theorem record_counts (traced : Traced) (k : Kernel) (action : Act) (sem : Nat) :
    (record traced k action).ups sem = traced.ups sem + given sem action ∧
      (record traced k action).downs sem = traced.downs sem + taken sem action := by
  cases action with
  | up pid other | take pid other | resume pid other =>
    by_cases same : sem = other <;> simp [record, given, taken, same]
  | wait | none => exact ⟨rfl, rfl⟩

theorem record_kernel (traced : Traced) (k : Kernel) (action : Act) :
    (record traced k action).kernel = k := by
  cases action <;> rfl

/-- Where the queues go in an operation. -/
theorem perform_queue {s : State Nat Nat} (action : Act) (sem : Nat) :
    (perform s action).queue sem = s.queue sem ∨
      (∃ pid, action = .up pid sem ∧ (perform s action).queue sem = (s.queue sem).tail) ∨
      ∃ pid, action = .wait pid sem ∧ (perform s action).queue sem = s.queue sem ++ [pid] := by
  cases action with
  | up pid other =>
    by_cases same : sem = other
    · subst same
      refine .inr (.inl ⟨pid, rfl, ?_⟩)
      cases waits : s.queue sem <;> simp [perform, Semaphores.up, waits, post, grant]
    · refine .inl ?_
      cases waits : s.queue other <;> simp [perform, Semaphores.up, waits, post, grant, same]
  | wait pid other =>
    by_cases same : sem = other
    · subst same
      exact .inr (.inr ⟨pid, rfl, by simp [perform, Semaphores.wait]⟩)
    · exact .inl (by simp [perform, Semaphores.wait, same])
  | take | resume | none => exact .inl rfl

/-- The queues stay in the order of arrival. -/
theorem record_order {traced : Traced} (accounted : Accounted initial traced)
    (same : abstract k = perform (abstract traced.kernel) action)
    (enabled : Enabled (abstract traced.kernel) action) (sem : Nat) :
    (k.sems sem).waitQueue.Pairwise
        (fun a b => (record traced k action).since a < (record traced k action).since b) ∧
      ∀ pid ∈ (k.sems sem).waitQueue, (record traced k action).since pid < (record traced k action).clock := by
  have order := accounted.order sem
  have past := accounted.past sem
  have queue : (k.sems sem).waitQueue = (perform (abstract traced.kernel) action).queue sem :=
    congrFun (congrArg State.queue same) sem
  have queue' : (traced.kernel.sems sem).waitQueue = (abstract traced.kernel).queue sem := rfl
  rw [queue'] at order past
  rw [queue]
  have moves := perform_queue (s := abstract traced.kernel) action sem
  cases action with
  | wait pid other =>
    have outside : pid ∉ (abstract traced.kernel).queue sem := by
      rw [accounted.steady.sound.queued, enabled.1]
      nofun
    have kept : ∀ q ∈ (abstract traced.kernel).queue sem,
        (record traced k (.wait pid other)).since q = traced.since q := fun q inQueue => by
      have apart : q ≠ pid := by
        rintro rfl
        exact outside inQueue
      simp [record, apart]
    have new : (record traced k (.wait pid other)).since pid = traced.clock := by simp [record]
    have clock : (record traced k (.wait pid other)).clock = traced.clock + 1 := rfl
    have order' : ((abstract traced.kernel).queue sem).Pairwise fun a b =>
        (record traced k (.wait pid other)).since a < (record traced k (.wait pid other)).since b :=
      order.imp_of_mem fun inA inB lt => by
        rw [kept _ inA, kept _ inB]
        exact lt
    have past' : ∀ q ∈ (abstract traced.kernel).queue sem,
        (record traced k (.wait pid other)).since q < traced.clock := fun q inQueue =>
      (kept q inQueue).trans_lt (past q inQueue)
    rcases moves with same | ⟨_, ⟨⟩, -⟩ | ⟨_, ⟨⟩, same⟩ <;> rw [same]
    · exact ⟨order', fun q inQueue => by have := past' q inQueue; omega⟩
    · refine ⟨List.pairwise_append.mpr ⟨order', List.pairwise_singleton _ _, fun q inQueue r last => ?_⟩,
        fun q inQueue => ?_⟩
      · obtain rfl := List.mem_singleton.mp last
        exact new ▸ past' q inQueue
      · rcases List.mem_append.mp inQueue with inQueue | last
        · have := past' q inQueue
          omega
        · obtain rfl := List.mem_singleton.mp last
          omega
  | up pid other | take pid other | resume pid other | none =>
    rcases moves with same | ⟨_, _, same⟩ | ⟨_, ⟨⟩, -⟩ <;> rw [same]
    · exact ⟨order, past⟩
    · exact ⟨order.tail, fun q inQueue => past q (List.mem_of_mem_tail inQueue)⟩

theorem step_handsOver {traced after : Traced} (accounted : Accounted initial traced)
    (running : ready traced.kernel pid) (ran : step traced (.up pid sem) = some after) :
    HandsOver traced after sem := by
  rintro ⟨waiter, waiting⟩
  have steady := accounted.steady
  have inQueue : waiter ∈ (traced.kernel.sems sem).waitQueue :=
    (steady.sound.queued sem waiter).mpr (waiting_iff.mp waiting)
  obtain ⟨first, rest, waits⟩ := List.exists_cons_of_ne_nil (List.ne_nil_of_mem inQueue)
  obtain ⟨frame, asleep, waitState⟩ := steady.waiting (waits ▸ List.mem_cons_self)
  have woke := up_waiter waits asleep waitState
  obtain rfl : record traced (handOver traced.kernel sem first rest) (.up pid sem) = after := by
    simpa [step, Sched.step, running, woke, actOf] using ran
  refine ⟨first, ⟨_, frame, asleep⟩, ⟨wtKsem, ?_⟩, ?_, fun other apart => ⟨?_, ?_, fun waiting' => ?_⟩⟩
  · simp [record, handOver, setProc, setFrame, setSem]
  · simp [record, handOver, setProc, setFrame, setSem]
  · simp [record, handOver, setProc, setFrame, setSem, apart]
  · simp [record, handOver, setProc, setFrame, setSem, apart]
  · have inQueue' : other ∈ first :: rest :=
      waits ▸ (steady.sound.queued sem other).mpr (waiting_iff.mp waiting')
    have order := accounted.order sem
    rw [waits] at order
    exact (List.pairwise_cons.mp order).1 other ((List.mem_cons.mp inQueue').resolve_left apart)

/-- Every lawful event keeps the account. -/
theorem step_accounted (initial : Nat → Int) (traced : Traced) (event : Event)
    (accounted : Accounted initial traced) (lawful : Lawful traced.kernel event) :
    ∃ after, step traced event = some after ∧ Good initial traced event after ∧
      Accounted initial after := by
  obtain ⟨k, ran, steady, same, enabled, -⟩ := accounted.steady.step lawful
  have ran' : step traced event = some (record traced k (actOf traced.kernel event)) := by
    simp [step, ran]
  have accounted' : Accounted initial (record traced k (actOf traced.kernel event)) := by
    refine ⟨?_, fun sem => ?_, fun sem => ?_, fun sem => ?_, fun sem => ?_⟩
    · rwa [record_kernel]
    · rw [record_kernel, same]
      exact (perform_units accounted.steady.sound accounted.finite enabled sem).1
    · obtain ⟨ups, downs⟩ := record_counts traced k (actOf traced.kernel event) sem
      have units := (perform_units accounted.steady.sound accounted.finite enabled sem).2
      have count := accounted.count sem
      rw [record_kernel, same, ups, downs]
      push_cast
      omega
    · rw [record_kernel]
      exact (record_order accounted same enabled sem).1
    · rw [record_kernel]
      exact (record_order accounted same enabled sem).2
  refine ⟨_, ran', ⟨fun sem => (accounted'.steady.range sem).1, fun sem positive => ?_, fun sem => ?_, ?_⟩,
    accounted'⟩
  · exact accounted'.steady.sound.empty sem (by simpa [abstract] using positive)
  · have count := accounted'.count sem
    have range := accounted'.steady.range sem
    rw [handed_eq accounted'.steady]
    simp only [units, abstract] at count ⊢
    push_cast at count
    omega
  · rintro pid sem rfl running
    exact step_handsOver accounted running ran'

theorem boot_accounted (initial : Nat → Int) (range : ∀ sem, 0 ≤ initial sem ∧ initial sem < 2 ^ 31) :
    Accounted initial (boot initial) where
  steady := boot_steady initial range
  finite sem := by
    have none_granted : granted (abstract (boot initial).kernel) sem = ∅ := by
      ext pid
      simp [granted, abstract, place, boot, Sched.boot]
    simp [none_granted]
  count sem := by
    have none_granted : granted (abstract (boot initial).kernel) sem = ∅ := by
      ext pid
      simp [granted, abstract, place, boot, Sched.boot]
    have := range sem
    simp only [units, none_granted, Set.ncard_empty]
    simp only [boot, Sched.boot, abstract]
    omega
  order _ := .nil
  past := nofun

/-! ## Mutual exclusion -/

/-- The processes between a completed `down` and their next `up`. -/
def holders (traced : Traced) (sem : Nat) : Set Nat := {pid | traced.inside sem pid}

/-- What `Sections` says of the operation itself. -/
def Used (sem : Nat) (traced : Traced) : Act → Prop
  | .up pid other => other = sem → pid ∈ holders traced sem
  | .take pid other | .wait pid other => other = sem → pid ∉ holders traced sem
  | _ => True

theorem Sections.used {traced : Traced} (sections : Sections sem traced event) :
    Used sem traced (actOf traced.kernel event) := by
  cases event with
  | up pid other =>
    by_cases running : ready traced.kernel pid
    · simpa [actOf, running, Used, holders] using fun same => sections same running
    · simp [actOf, running, Used]
  | down pid other =>
    by_cases running : ready traced.kernel pid <;>
      by_cases positive : 0 < (traced.kernel.sems other).value
    · simpa [actOf, running, positive, Used, holders] using fun same => sections same running
    · simpa [actOf, running, positive, Used, holders] using fun same => sections same running
    all_goals simp [actOf, running, Used]
  | tryDown pid other =>
    by_cases running : ready traced.kernel pid <;>
      by_cases positive : 0 < (traced.kernel.sems other).value
    · simpa [actOf, running, positive, Used, holders] using fun same => sections same running
    all_goals simp [actOf, running, positive, Used]
  | resume pid =>
    cases inside : traced.kernel.frames pid with
    | none => simp [actOf, inside, Used]
    | some frame =>
      by_cases running : awake traced.kernel pid <;> cases frame <;> simp [actOf, inside, running, Used]
  | sleep | kill | tick | addTimer | delTimer => trivial

structure Guarded (sem : Nat) (traced : Traced) : Prop where
  steady : Steady traced.kernel
  single : Single (abstract traced.kernel) {sem} (holders traced sem)

theorem holders_mark (traced : Traced) (k : Kernel) (sem pid : Nat) :
    holders (record traced k (.up pid sem)) sem = holders traced sem \ {pid} ∧
      holders (record traced k (.take pid sem)) sem = insert pid (holders traced sem) ∧
      holders (record traced k (.resume pid sem)) sem = insert pid (holders traced sem) := by
  refine ⟨?_, ?_, ?_⟩ <;> ext q <;> by_cases same : q = pid <;> simp [holders, record, mark, same]

theorem holders_other (traced : Traced) (k : Kernel) (pid : Nat) (apart : sem ≠ other) :
    holders (record traced k (.up pid other)) sem = holders traced sem ∧
      holders (record traced k (.take pid other)) sem = holders traced sem ∧
      holders (record traced k (.resume pid other)) sem = holders traced sem := by
  refine ⟨?_, ?_, ?_⟩ <;> ext q <;> simp [holders, record, mark, apart]

theorem perform_single {traced : Traced} (guarded : Guarded sem traced)
    (enabled : Enabled (abstract traced.kernel) action) (used : Used sem traced action) :
    Single (perform (abstract traced.kernel) action) {sem} (holders (record traced k action) sem) := by
  have single := guarded.single
  cases action with
  | up pid other =>
    by_cases same : sem = other
    · subst same
      rw [(holders_mark traced k sem pid).1]
      exact single.up (used rfl) rfl
    · rw [(holders_other traced k pid same).1]
      exact single.up_other fun inside => same inside.symm
  | take pid other =>
    by_cases same : sem = other
    · subst same
      rw [(holders_mark traced k sem pid).2.1]
      exact single.take rfl enabled.2 enabled.1
    · rw [(holders_other traced k pid same).2.1]
      exact single.take_other fun inside => same inside.symm
  | wait pid other => exact single.wait enabled.1 fun inside => used inside
  | resume pid other =>
    by_cases same : sem = other
    · subst same
      rw [(holders_mark traced k sem pid).2.2]
      exact single.resume rfl enabled
    · rw [(holders_other traced k pid same).2.2]
      exact single.resume_other pid
  | none => exact single

theorem step_guarded (sem : Nat) (traced : Traced) (event : Event) (guarded : Guarded sem traced)
    (meets : Lawful traced.kernel event ∧ Sections sem traced event) :
    ∃ after, step traced event = some after ∧ Exclusive sem after ∧ Guarded sem after := by
  obtain ⟨k, ran, steady, same, enabled, -⟩ := guarded.steady.step meets.1
  have single : Single (perform (abstract traced.kernel) (actOf traced.kernel event)) {sem}
      (holders (record traced k (actOf traced.kernel event)) sem) :=
    perform_single guarded enabled meets.2.used
  refine ⟨record traced k (actOf traced.kernel event), by simp [step, ran], ?_, ?_, ?_⟩
  · exact fun p q inP inQ => single.owner p q (.inl inP) (.inl inQ)
  · rwa [record_kernel]
  · rwa [record_kernel, same]

theorem boot_guarded (initial : Nat → Int) (range : ∀ sem, 0 ≤ initial sem ∧ initial sem < 2 ^ 31)
    (one : initial sem = 1) : Guarded sem (boot initial) := by
  have nobody (p : Nat) : ¬ Owns (abstract (boot initial).kernel) {sem} (holders (boot initial) sem) p := by
    rintro (held | ⟨_, -, woken⟩)
    · cases held
    · cases woken
  refine ⟨boot_steady initial range, ?_, ?_, ?_, ?_, nofun⟩
  · rintro other rfl
    simp [abstract, boot, Sched.boot, one]
  · rintro a rfl b rfl _ _
    rfl
  · exact fun _ _ _ p => nobody p
  · exact fun p _ owns => absurd owns (nobody p)

/-- From boot the semaphores keep account of every unit, hand it to the longest
waiter, and one with a single unit admits one process at a time. -/
theorem semaphores_safe (initial : Nat → Int) (range : ∀ sem, 0 ≤ initial sem ∧ initial sem < 2 ^ 31)
    (events : List Event)
    (lawful : Along step (fun traced event => Lawful traced.kernel event) (boot initial) events) :
    Safe step (Good initial) (boot initial) events ∧
      ∀ sem, initial sem = 1 → Along step (Sections sem) (boot initial) events →
        Safe step (fun _ _ after => Exclusive sem after) (boot initial) events :=
  ⟨safe_of_invariant (step_accounted initial) (boot_accounted initial range) lawful,
    fun sem one sections => safe_of_invariant (step_guarded sem) (boot_guarded initial range one)
      (lawful.and sections)⟩

/-- Two processes and one section; the one that waits is killed on the way. -/
def section12 : List Event := [.down 1 0, .down 2 0, .kill 2, .up 1 0, .resume 2]

theorem semaphores_safe_section12 :
    Safe step (Good fun _ => 1) (boot fun _ => 1) section12 ∧
      Safe step (fun _ _ after => Exclusive 0 after) (boot fun _ => 1) section12 := by
  have lawful : Along step (fun traced event => Lawful traced.kernel event ∧ Sections 0 traced event)
      (boot fun _ => 1) section12 := by
    refine ⟨⟨trivial, fun _ _ => Bool.false_ne_true⟩, ?_⟩
    rintro _ ⟨⟩
    refine ⟨⟨trivial, fun _ _ => Bool.false_ne_true⟩, ?_⟩
    rintro _ ⟨⟩
    refine ⟨⟨trivial, trivial⟩, ?_⟩
    rintro _ ⟨⟩
    refine ⟨⟨nofun, fun _ _ => rfl⟩, ?_⟩
    rintro _ ⟨⟩
    exact ⟨⟨trivial, trivial⟩, fun _ _ => trivial⟩
  obtain ⟨safe, exclusive⟩ := semaphores_safe (fun _ => 1) (fun _ => by decide) section12
    (lawful.imp fun _ _ meets => meets.1)
  exact ⟨safe, exclusive 0 rfl (lawful.imp fun _ _ meets => meets.2)⟩

/-- A value at the end of the `int` range wraps around, and `sem_init` takes a
negative one as it is. -/
theorem up_wraps : (∃ after, step (boot fun _ => 2 ^ 31 - 1) (.up 1 0) = some after ∧
    (after.kernel.sems 0).value < 0) ∧ ((boot fun _ => -1).kernel.sems 0).value < 0 :=
  ⟨⟨_, rfl, by decide⟩, by decide⟩

end Ucore.SemSafety
