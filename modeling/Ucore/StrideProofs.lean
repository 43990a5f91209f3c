import Ucore.Stride

/-! The run queue holds the runnable processes, and stays in the order of the
strides as long as no process comes in from too far away. -/
namespace Ucore.Stride
open Sched SkewHeap Runs

def queue (k : Kernel) : Multiset Nat := k.rq.lab6RunPool.entries

/-- The run queue holds exactly these processes. -/
structure Holds (k : Kernel) (queued : Set Nat) : Prop where
  distinct : (queue k).Nodup
  mem : ∀ pid, pid ∈ queue k ↔ pid ∈ queued
  count : k.rq.procNum = (queue k).card
  rq : ∀ pid ∈ queue k, (k.procs pid).rq

/-- The processes that may run, `idleproc` apart. -/
def Runnable (k : Kernel) (pid : Nat) : Prop := (k.procs pid).state = .runnable ∧ pid ≠ idleproc

structure Queued (k : Kernel) : Prop where
  holds : Holds k {pid | Runnable k pid ∧ pid ≠ k.current}
  idle : (k.procs idleproc).state = .runnable
  current : (k.procs k.current).state ≠ .uninit

@[simp] theorem queue_setProc (k : Kernel) (pid : Nat) (proc : Proc) : queue (setProc k pid proc) = queue k := rfl

@[simp] theorem current_setProc (k : Kernel) (pid : Nat) (proc : Proc) :
    (setProc k pid proc).current = k.current := rfl

theorem Holds.same (holds : Holds k queued) (same : ∀ pid, pid ∈ queued ↔ pid ∈ queued') : Holds k queued' :=
  { holds with mem := fun pid => (holds.mem pid).trans (same pid) }

theorem Holds.setProc (holds : Holds k queued) (kept : pid ∈ queued → proc.rq) :
    Holds (setProc k pid proc) queued := by
  refine ⟨holds.distinct, holds.mem, holds.count, fun other inside => ?_⟩
  by_cases here : other = pid
  · subst here
    simpa [Stride.setProc] using kept ((holds.mem other).mp inside)
  · simpa [Stride.setProc, here] using holds.rq other inside

theorem queue_strideEnqueue (k : Kernel) (pid : Nat) : queue (strideEnqueue k pid) = queue k + {pid} :=
  Heap.insert_entries _ _

theorem Holds.enqueue (holds : Holds k queued) (fresh : pid ∉ queued) :
    Holds (strideEnqueue k pid) (insert pid queued) := by
  refine ⟨?_, fun other => ?_, ?_, fun other inside => ?_⟩
  · rw [queue_strideEnqueue, Multiset.nodup_add]
    refine ⟨holds.distinct, Multiset.nodup_singleton pid, ?_⟩
    rw [Multiset.disjoint_singleton]
    exact fun inside => fresh ((holds.mem pid).mp inside)
  · rw [queue_strideEnqueue, Multiset.mem_add, holds.mem, Multiset.mem_singleton, Set.mem_insert_iff, or_comm]
  · rw [queue_strideEnqueue, Multiset.card_add, Multiset.card_singleton, ← holds.count]
    rfl
  · by_cases here : other = pid
    · simp [strideEnqueue, Stride.setProc, here]
    · have inside : other ∈ queue k := by
        simpa [queue_strideEnqueue, here] using inside
      simpa [strideEnqueue, Stride.setProc, here] using holds.rq other inside

/-- The two assertions of `stride_dequeue` hold of a queued process. -/
theorem Holds.dequeue (holds : Holds k queued) (inside : pid ∈ queued) :
    strideDequeue k pid =
        some { k with rq := ⟨k.rq.procNum - 1, k.rq.lab6RunPool.remove (less k.procs) pid⟩ } ∧
      Holds { k with rq := ⟨k.rq.procNum - 1, k.rq.lab6RunPool.remove (less k.procs) pid⟩ }
        (queued \ {pid}) := by
  have member : pid ∈ queue k := (holds.mem pid).mpr inside
  have some_queued : 0 < k.rq.procNum := holds.count ▸ Multiset.card_pos_iff_exists_mem.mpr ⟨pid, member⟩
  have removed : (k.rq.lab6RunPool.remove (less k.procs) pid).entries = (queue k).erase pid :=
    Heap.remove_entries holds.distinct pid
  have after : queue { k with rq := ⟨k.rq.procNum - 1, k.rq.lab6RunPool.remove (less k.procs) pid⟩ } =
      (queue k).erase pid := removed
  refine ⟨by simp [strideDequeue, holds.rq pid member, some_queued], ?_, fun other => ?_, ?_,
    fun other inside => ?_⟩
  · rw [after]
    exact holds.distinct.erase pid
  · rw [after, holds.distinct.mem_erase_iff, holds.mem, Set.mem_sdiff, Set.mem_singleton_iff, and_comm]
  · rw [after, Multiset.card_erase_of_mem member, ← holds.count]
    rfl
  · rw [after] at inside
    exact holds.rq other (Multiset.mem_of_mem_erase inside)

/-! ## What the operations keep -/

theorem states_strideEnqueue (k : Kernel) (pid other : Nat) :
    ((strideEnqueue k pid).procs other).state = (k.procs other).state := by
  by_cases here : other = pid <;> simp [strideEnqueue, setProc, here]

/-- A process whose state does not change changes nothing for the queue. -/
theorem Queued.setProc (queued : Queued k) (state : proc.state = (k.procs pid).state)
    (rq : (k.procs pid).rq → proc.rq) : Queued (setProc k pid proc) := by
  have states (other : Nat) : ((Stride.setProc k pid proc).procs other).state = (k.procs other).state := by
    by_cases here : other = pid <;> simp [Stride.setProc, here, state]
  refine ⟨?_, (states _).trans queued.idle, fun dead => queued.current ((states _).symm.trans dead)⟩
  refine (queued.holds.setProc fun inside => rq (queued.holds.rq pid ((queued.holds.mem pid).mpr inside))).same
    fun other => ?_
  simp only [Runnable, states, current_setProc]

/-- The current process stops being runnable. -/
theorem Queued.stop (queued : Queued k) (busy : k.current ≠ idleproc)
    (alive : proc.state ≠ .uninit) : Queued (Stride.setProc k k.current proc) := by
  refine ⟨(queued.holds.setProc fun inside => absurd rfl inside.2).same fun other => ?_, ?_, ?_⟩
  · by_cases here : other = k.current
    · simp [here]
    · simp [Runnable, Stride.setProc, here]
  · simpa [Stride.setProc, busy.symm] using queued.idle
  · simpa [Stride.setProc] using alive

/-- A process that does not run and is not runnable may change as long as it stays so. -/
theorem Queued.away (queued : Queued k) (asleep : (k.procs pid).state ≠ .runnable) (apart : pid ≠ k.current)
    (stays : proc.state ≠ .runnable) : Queued (Stride.setProc k pid proc) := by
  have idle : idleproc ≠ pid := by
    rintro rfl
    exact asleep queued.idle
  refine ⟨(queued.holds.setProc fun inside => absurd inside.1.1 asleep).same fun other => ?_, ?_, ?_⟩
  · by_cases here : other = pid
    · simp [Runnable, Stride.setProc, here, asleep, stays]
    · simp [Runnable, Stride.setProc, here]
  · simpa [Stride.setProc, idle] using queued.idle
  · simpa [Stride.setProc, apart.symm] using queued.current

/-- `wakeup_proc` of a process that is asleep. -/
def woken (k : Kernel) (pid : Nat) : Kernel :=
  Stride.setProc k pid { k.procs pid with state := .runnable, waitState := 0 }

theorem wakeupProc_asleep (alive : (k.procs pid).state ≠ .zombie) (asleep : (k.procs pid).state ≠ .runnable)
    (apart : pid ≠ idleproc) :
    wakeupProc k pid = some (if pid ≠ k.current then strideEnqueue (woken k pid) pid else woken k pid) := by
  cases state : (k.procs pid).state <;> simp_all [wakeupProc, woken, schedClassEnqueue]

/-- `wakeup_proc` queues the process that it wakes, unless that is current. -/
theorem Queued.wakeup (queued : Queued k) (alive : (k.procs pid).state ≠ .zombie) :
    ∃ after, wakeupProc k pid = some after ∧ Queued after := by
  by_cases awake : (k.procs pid).state = .runnable
  · exact ⟨k, by simp [wakeupProc, awake], queued⟩
  have apart : pid ≠ idleproc := by
    rintro rfl
    exact awake queued.idle
  have outside : pid ∉ {other | Runnable k other ∧ other ≠ k.current} := fun inside => awake inside.1.1
  have holds : Holds (woken k pid) {other | Runnable k other ∧ other ≠ k.current} :=
    queued.holds.setProc fun inside => absurd inside outside
  have idle : ((woken k pid).procs idleproc).state = .runnable := by
    simpa [woken, Stride.setProc, apart.symm] using queued.idle
  rw [wakeupProc_asleep alive awake apart]
  refine ⟨_, rfl, ?_⟩
  by_cases here : pid = k.current
  · rw [if_neg (by simpa using here)]
    refine ⟨holds.same fun other => ?_, idle, by simp [woken, Stride.setProc, here]⟩
    by_cases same : other = pid
    · simp [same, here, woken]
    · simp [Runnable, woken, Stride.setProc, same]
  · rw [if_pos here]
    refine ⟨(holds.enqueue outside).same fun other => ?_, (states_strideEnqueue _ _ _).trans idle, ?_⟩
    · have current : (strideEnqueue (woken k pid) pid).current = k.current := rfl
      simp only [Set.mem_insert_iff, Set.mem_ofPred_eq, Runnable, states_strideEnqueue, current]
      by_cases same : other = pid
      · simp [same, woken, Stride.setProc, apart, here]
      · simp [woken, Stride.setProc, same]
    · have current : (strideEnqueue (woken k pid) pid).current = k.current := rfl
      rw [states_strideEnqueue, current]
      simpa [woken, Stride.setProc, Ne.symm here] using queued.current

/-- `schedule` before it looks at the current process. -/
def rested (k : Kernel) : Kernel :=
  Stride.setProc k k.current { k.procs k.current with needResched := false }

theorem states_rested (k : Kernel) (pid : Nat) : ((rested k).procs pid).state = (k.procs pid).state := by
  by_cases here : pid = k.current <;> simp [rested, Stride.setProc, here]

theorem requeue_cases (k : Kernel) :
    Runnable k k.current ∧ requeue k = strideEnqueue (rested k) k.current ∨
      ¬ Runnable k k.current ∧ requeue k = rested k := by
  have whole : requeue k = if ((rested k).procs k.current).state = .runnable then
      schedClassEnqueue (rested k) k.current else rested k := rfl
  rw [whole, states_rested]
  by_cases state : (k.procs k.current).state = .runnable <;> by_cases idle : k.current = idleproc <;>
    simp [Runnable, state, idle, schedClassEnqueue]

/-- Before the choice the queue holds the current process too, if it may go on. -/
theorem Queued.requeue (queued : Queued k) :
    Holds (requeue k) {pid | Runnable k pid} ∧
      ∀ pid, ((Stride.requeue k).procs pid).state = (k.procs pid).state := by
  have holds : Holds (rested k) {pid | Runnable k pid ∧ pid ≠ k.current} :=
    queued.holds.setProc fun inside => absurd rfl inside.2
  rcases requeue_cases k with ⟨awake, same⟩ | ⟨stopped, same⟩
  · rw [same]
    refine ⟨(holds.enqueue fun inside => inside.2 rfl).same fun pid => ?_, fun pid =>
      (states_strideEnqueue _ _ _).trans (states_rested k pid)⟩
    by_cases here : pid = k.current
    · simp [here, awake]
    · simp [here]
  · rw [same]
    refine ⟨holds.same fun pid => ?_, states_rested k⟩
    by_cases here : pid = k.current
    · simp [here, stopped]
    · simp [here]

/-- The process at the root is charged, leaves the queue and runs. -/
def taken (k : Kernel) (next : Nat) : Kernel :=
  { charge k next with
    current := next
    rq := ⟨k.rq.procNum - 1, k.rq.lab6RunPool.remove (less (charge k next).procs) next⟩ }

/-- `schedule` takes the root of the run pool, and `idleproc` if there is none. -/
theorem Queued.schedule (queued : Queued k) :
    ∃ after, Stride.schedule k = some after ∧ Queued after ∧
      ((Stride.requeue k).rq.lab6RunPool.root = none ∧
          after = { Stride.requeue k with current := idleproc } ∨
        ∃ next, (Stride.requeue k).rq.lab6RunPool.root = some next ∧ Runnable k next ∧
          after = taken (Stride.requeue k) next) := by
  obtain ⟨holds, states⟩ := queued.requeue
  cases root : (Stride.requeue k).rq.lab6RunPool.root with
  | none =>
    have empty : queue (Stride.requeue k) = 0 := Heap.root_none.mp root
    have nobody (pid : Nat) : ¬ Runnable k pid := fun awake => by
      have := (holds.mem pid).mpr awake
      simp [empty] at this
    have holds' : Holds { Stride.requeue k with current := idleproc } {pid | Runnable k pid} :=
      ⟨holds.distinct, holds.mem, holds.count, holds.rq⟩
    refine ⟨{ Stride.requeue k with current := idleproc }, by simp only [Stride.schedule, root],
      ⟨holds'.same fun pid => ?_, (states _).trans queued.idle, ?_⟩, .inl ⟨rfl, rfl⟩⟩
    · have same : Runnable { Stride.requeue k with current := idleproc } pid ↔ Runnable k pid := by
        simp only [Runnable, states]
      simp only [Set.mem_ofPred_eq, same, nobody, false_and]
    · simp only [states, queued.idle]
      decide
  | some next =>
    have awake : Runnable k next := (holds.mem next).mp (Heap.mem_of_root root)
    have charged : Holds (charge (Stride.requeue k) next) {pid | Runnable k pid} :=
      holds.setProc fun inside => holds.rq next ((holds.mem next).mpr inside)
    have states' (pid : Nat) : ((charge (Stride.requeue k) next).procs pid).state = (k.procs pid).state := by
      by_cases here : pid = next <;> simp [charge, Stride.setProc, here, states]
    obtain ⟨ran, dequeued⟩ := charged.dequeue awake
    have holds' : Holds (taken (Stride.requeue k) next) ({pid | Runnable k pid} \ {next}) :=
      ⟨dequeued.distinct, dequeued.mem, dequeued.count, dequeued.rq⟩
    refine ⟨taken (Stride.requeue k) next, ?_, ⟨holds'.same fun pid => ?_, (states' _).trans queued.idle, ?_⟩,
      .inr ⟨next, rfl, awake, rfl⟩⟩
    · simp only [Stride.schedule, root, ran, Option.map_some]
      rfl
    · have same : Runnable (taken (Stride.requeue k) next) pid ↔ Runnable k pid := by
        simp only [Runnable, taken, states']
      have current : (taken (Stride.requeue k) next).current = next := rfl
      rw [Set.mem_sdiff, Set.mem_singleton_iff, Set.mem_ofPred_eq, Set.mem_ofPred_eq, same, current]
    · simp only [taken, states', awake.1]
      decide

/-! ## True strides -/

/-- The scheduler beside the strides that its processes would have in unbounded numbers. -/
structure Traced where
  kernel : Kernel
  strides : Nat → Nat

def stridesAfter (traced : Traced) : Event → Nat → Nat
  | .create pid =>
    if (traced.kernel.procs pid).state = .uninit then Function.update traced.strides pid 0 else traced.strides
  | .schedule =>
    match (requeue traced.kernel).rq.lab6RunPool.root with
    | some next => Function.update traced.strides next
        (traced.strides next + (pass ((requeue traced.kernel).procs next).lab6Priority).toNat)
    | none => traced.strides
  | _ => traced.strides

def Traced.step (traced : Traced) (event : Event) : Option Traced :=
  (Stride.step traced.kernel event).map fun k => ⟨k, stridesAfter traced event⟩

/-- The strides of the queued processes are close, and the comparison knows their order. -/
structure Ranked (strides : Nat → Nat) (k : Kernel) : Prop where
  spread : ∀ p ∈ queue k, ∀ q ∈ queue k, strides p ≤ strides q + bigStride.toNat
  compares : ∀ p ∈ queue k, ∀ q ∈ queue k,
    procStrideComp (k.procs p) (k.procs q) = ((strides p : Int) - strides q).sign
  total : ∀ p ∈ queue k, ∀ q ∈ queue k,
    procStrideComp (k.procs p) (k.procs q) ≤ 0 ∨ procStrideComp (k.procs q) (k.procs p) ≤ 0
  trans : ∀ p ∈ queue k, ∀ q ∈ queue k, ∀ r ∈ queue k, procStrideComp (k.procs p) (k.procs q) ≤ 0 →
    procStrideComp (k.procs q) (k.procs r) ≤ 0 → procStrideComp (k.procs p) (k.procs r) ≤ 0

structure Good (before : Traced) (event : Event) (after : Traced) : Prop where
  ranked : Ranked after.strides after.kernel
  picks : event = .schedule → Ranked before.strides (requeue before.kernel) ∧
    ∀ next, (requeue before.kernel).rq.lab6RunPool.root = some next → after.kernel.current = next ∧
      ∀ pid ∈ queue (requeue before.kernel), before.strides next ≤ before.strides pid
  passes : ∀ pid, 1 ≤ (pass (after.kernel.procs pid).lab6Priority).toNat

/-- An event that fails is the waking of a zombie. -/
def Outcome (before : Traced) (event : Event) : Prop :=
  match before.step event with
  | some after => Good before event after
  | none => ∃ pid, event = .wake pid ∧ (before.kernel.procs pid).state = .zombie

/-- A process that becomes runnable has a stride close to those of the runnable
ones, and no priority is so large that it leaves no pass. -/
def Meets (traced : Traced) : Event → Prop
  | .create _ => ∀ other, Runnable traced.kernel other → traced.strides other ≤ bigStride.toNat
  | .wake pid => (traced.kernel.procs pid).state = .sleeping → ∀ other, Runnable traced.kernel other →
      traced.strides pid ≤ traced.strides other + bigStride.toNat ∧
        traced.strides other ≤ traced.strides pid + bigStride.toNat
  | .setPriority priority => priority ≤ bigStride
  | _ => True

structure Stepped (traced : Traced) : Prop where
  queued : Queued traced.kernel
  wrapped : ∀ pid, (traced.kernel.procs pid).state ≠ .uninit →
    (traced.kernel.procs pid).lab6Stride = BitVec.ofNat 32 (traced.strides pid)
  spread : ∀ p q, Runnable traced.kernel p → Runnable traced.kernel q →
    traced.strides p ≤ traced.strides q + bigStride.toNat
  ordered : Heap.Ordered traced.strides traced.kernel.rq.lab6RunPool
  bounded : ∀ pid, (traced.kernel.procs pid).lab6Priority ≤ bigStride

theorem toNat_bigStride : bigStride.toNat = 2 ^ 30 := by decide

/-- The sign of the wrapped difference of two close strides is that of the true one. -/
theorem procStrideComp_close {p q : Proc} (wrapped : p.lab6Stride = BitVec.ofNat 32 a)
    (wrapped' : q.lab6Stride = BitVec.ofNat 32 b) (close : a ≤ b + bigStride.toNat)
    (close' : b ≤ a + bigStride.toNat) : procStrideComp p q = ((a : Int) - b).sign := by
  rw [toNat_bigStride] at close close'
  have whole : (p.lab6Stride - q.lab6Stride).toInt = (a : Int) - b := by
    rw [wrapped, wrapped', BitVec.toInt_sub, BitVec.toInt_ofNat', BitVec.toInt_ofNat']
    simp only [Int.sub_bmod_bmod, Int.bmod_sub_bmod]
    exact Int.bmod_eq_of_le (by omega) (by omega)
  simp only [procStrideComp, whole]
  by_cases positive : 0 < (a : Int) - b
  · rw [if_pos positive, Int.sign_eq_one_of_pos positive]
  · by_cases zero : (a : Int) - b = 0
    · simp [zero]
    · rw [if_neg positive, if_neg zero, Int.sign_eq_neg_one_of_neg (by omega)]

theorem pass_bounds (bounded : priority ≤ bigStride) :
    1 ≤ (pass priority).toNat ∧ (pass priority).toNat ≤ bigStride.toNat := by
  by_cases zero : priority = 0
  · simp [pass, zero, toNat_bigStride]
  · have positive : 0 < priority.toNat := Nat.pos_of_ne_zero fun none => zero (BitVec.eq_of_toNat_eq none)
    rw [BitVec.le_def] at bounded
    simp only [pass, ne_eq, zero, not_false_eq_true, if_true, BitVec.toNat_udiv]
    exact ⟨(Nat.one_le_div_iff positive).mpr bounded, Nat.div_le_self _ _⟩

theorem alive_of_runnable {k : Kernel} (awake : Runnable k pid) : (k.procs pid).state ≠ .uninit := by
  rw [awake.1]
  decide

theorem Stepped.compares {traced : Traced} (stepped : Stepped traced) (awake : Runnable traced.kernel p)
    (awake' : Runnable traced.kernel q) :
    procStrideComp (traced.kernel.procs p) (traced.kernel.procs q) =
      ((traced.strides p : Int) - traced.strides q).sign :=
  procStrideComp_close (stepped.wrapped p (alive_of_runnable awake))
    (stepped.wrapped q (alive_of_runnable awake')) (stepped.spread p q awake awake')
    (stepped.spread q p awake' awake)

/-- Where the comparison is the sign of a difference it is a total preorder. -/
theorem ranked_of_sign {strides : Nat → Nat} {k : Kernel}
    (spread : ∀ p ∈ queue k, ∀ q ∈ queue k, strides p ≤ strides q + bigStride.toNat)
    (compares : ∀ p ∈ queue k, ∀ q ∈ queue k,
      procStrideComp (k.procs p) (k.procs q) = ((strides p : Int) - strides q).sign) : Ranked strides k := by
  have below (p : Nat) (inside : p ∈ queue k) (q : Nat) (inside' : q ∈ queue k) :
      procStrideComp (k.procs p) (k.procs q) ≤ 0 ↔ strides p ≤ strides q := by
    rw [compares p inside q inside', Int.sign_nonpos_iff]
    omega
  refine ⟨spread, compares, fun p inside q inside' => ?_, fun p inside q inside' r inside'' first second => ?_⟩
  · rw [below p inside q inside', below q inside' p inside]
    omega
  · rw [below p inside q inside'] at first
    rw [below q inside' r inside''] at second
    rw [below p inside r inside'']
    omega

theorem Stepped.ranked {traced : Traced} (stepped : Stepped traced) : Ranked traced.strides traced.kernel := by
  have awake (pid : Nat) (inside : pid ∈ queue traced.kernel) : Runnable traced.kernel pid :=
    ((stepped.queued.holds.mem pid).mp inside).1
  exact ranked_of_sign (fun p inside q inside' => stepped.spread p q (awake p inside) (awake q inside'))
    fun p inside q inside' => stepped.compares (awake p inside) (awake q inside')

theorem less_iff {procs : Nat → Proc} {a b : Int} (compares : procStrideComp (procs p) (procs q) = (a - b).sign) :
    less procs p q = true ↔ a < b := by
  simp only [less, compares, decide_eq_true_eq, Int.sign_eq_neg_one_iff_neg]
  omega

/-- An event that neither queues nor charges a process. -/
theorem Stepped.keep {traced : Traced} (stepped : Stepped traced) (queued : Queued k)
    (pool : k.rq.lab6RunPool = traced.kernel.rq.lab6RunPool)
    (kept : ∀ pid, (k.procs pid).state = .uninit ∨ (traced.kernel.procs pid).state ≠ .uninit ∧
      (k.procs pid).lab6Stride = (traced.kernel.procs pid).lab6Stride)
    (awake : ∀ pid, Runnable k pid → Runnable traced.kernel pid)
    (bounded : ∀ pid, (k.procs pid).lab6Priority ≤ bigStride) : Stepped ⟨k, traced.strides⟩ := by
  refine ⟨queued, fun pid alive => ?_, fun p q awakeP awakeQ => stepped.spread p q (awake p awakeP) (awake q awakeQ),
    pool ▸ stepped.ordered, bounded⟩
  obtain ⟨alive', same⟩ := (kept pid).resolve_left alive
  exact same.trans (stepped.wrapped pid alive')

/-- A change to one process that leaves its stride. -/
theorem Stepped.setProc {traced : Traced} (stepped : Stepped traced)
    (queued : Queued (Stride.setProc traced.kernel pid proc)) (alive : (traced.kernel.procs pid).state ≠ .uninit)
    (stride : proc.lab6Stride = (traced.kernel.procs pid).lab6Stride)
    (awake : proc.state = .runnable → (traced.kernel.procs pid).state = .runnable)
    (bounded : proc.lab6Priority ≤ bigStride) :
    Stepped ⟨Stride.setProc traced.kernel pid proc, traced.strides⟩ := by
  refine stepped.keep queued rfl (fun other => ?_) (fun other awake' => ?_) fun other => ?_
  · by_cases here : other = pid
    · simp [Stride.setProc, here, stride, alive]
    · simp only [Stride.setProc, Function.update_of_ne here, and_true]
      exact Decidable.em _
  · by_cases here : other = pid
    · subst here
      exact ⟨awake (by simpa [Stride.setProc] using awake'.1), awake'.2⟩
    · exact ⟨by simpa [Stride.setProc, here] using awake'.1, awake'.2⟩
  · by_cases here : other = pid
    · simpa [Stride.setProc, here] using bounded
    · simpa [Stride.setProc, here] using stepped.bounded other

/-- What queueing a process leaves of its stride and priority, and of all others. -/
theorem strideEnqueue_keeps (k : Kernel) (pid other : Nat) :
    ((strideEnqueue k pid).procs other).lab6Stride = (k.procs other).lab6Stride ∧
      ((strideEnqueue k pid).procs other).lab6Priority = (k.procs other).lab6Priority := by
  by_cases here : other = pid <;> simp [strideEnqueue, Stride.setProc, here]

theorem woken_keeps (k : Kernel) (pid other : Nat) :
    ((woken k pid).procs other).lab6Stride = (k.procs other).lab6Stride ∧
      ((woken k pid).procs other).lab6Priority = (k.procs other).lab6Priority := by
  by_cases here : other = pid <;> simp [woken, Stride.setProc, here]

theorem states_woken (k : Kernel) (pid other : Nat) :
    ((woken k pid).procs other).state = if other = pid then .runnable else (k.procs other).state := by
  by_cases here : other = pid <;> simp [woken, Stride.setProc, here]

/-- Waking a process close to the others keeps the order. -/
theorem Stepped.wake {traced : Traced} (stepped : Stepped traced)
    (alive : (traced.kernel.procs pid).state ≠ .zombie) (asleep : (traced.kernel.procs pid).state ≠ .runnable)
    (stride : (traced.kernel.procs pid).lab6Stride = BitVec.ofNat 32 (traced.strides pid))
    (close : ∀ other, Runnable traced.kernel other →
      traced.strides pid ≤ traced.strides other + bigStride.toNat ∧
        traced.strides other ≤ traced.strides pid + bigStride.toNat) :
    ∃ after, wakeupProc traced.kernel pid = some after ∧ Stepped ⟨after, traced.strides⟩ := by
  obtain ⟨k, strides⟩ := traced
  have apart : pid ≠ idleproc := by
    rintro rfl
    exact asleep stepped.queued.idle
  obtain ⟨after, ran, queued⟩ := stepped.queued.wakeup alive
  refine ⟨after, ran, ?_⟩
  have result := (wakeupProc_asleep alive asleep apart).symm.trans ran
  -- after is the woken kernel, with or without one more entry in the pool
  have procs (other : Nat) : (after.procs other).lab6Stride = (k.procs other).lab6Stride ∧
      (after.procs other).lab6Priority = (k.procs other).lab6Priority ∧
      (after.procs other).state = if other = pid then .runnable else (k.procs other).state := by
    obtain ⟨stride', priority'⟩ := woken_keeps k pid other
    obtain ⟨stride'', priority''⟩ := strideEnqueue_keeps (woken k pid) pid other
    by_cases here : pid = k.current
    · rw [if_neg (by simpa using here)] at result
      cases result
      exact ⟨stride', priority', states_woken k pid other⟩
    · rw [if_pos here] at result
      cases result
      exact ⟨stride''.trans stride', priority''.trans priority',
        (states_strideEnqueue _ _ _).trans (states_woken k pid other)⟩
  have wrapped (other : Nat) (exists_other : (after.procs other).state ≠ .uninit) :
      (after.procs other).lab6Stride = BitVec.ofNat 32 (strides other) := by
    obtain ⟨same, -, state⟩ := procs other
    rw [same]
    by_cases here : other = pid
    · rw [here, stride]
    · rw [state, if_neg here] at exists_other
      exact stepped.wrapped other exists_other
  have awake (other : Nat) (awake : Runnable after other) : other = pid ∨ Runnable k other := by
    by_cases here : other = pid
    · exact .inl here
    · have state := (procs other).2.2
      rw [if_neg here] at state
      exact .inr ⟨state ▸ awake.1, awake.2⟩
  refine ⟨queued, wrapped, fun p q awakeP awakeQ => ?_, ?_, fun other => ?_⟩
  · rcases awake p awakeP with rfl | awakeP
    · rcases awake q awakeQ with rfl | awakeQ
      · exact Nat.le_add_right _ _
      · exact (close q awakeQ).1
    · rcases awake q awakeQ with rfl | awakeQ
      · exact (close p awakeP).2
      · exact stepped.spread p q awakeP awakeQ
  · by_cases here : pid = k.current
    · rw [if_neg (by simpa using here)] at result
      cases result
      exact stepped.ordered
    · rw [if_pos here] at result
      cases result
      refine Heap.Ordered.insert stepped.ordered fun other inside => ?_
      have awake' : Runnable k other := ((stepped.queued.holds.mem other).mp inside).1
      have compares : procStrideComp ((woken k pid).procs other) ((woken k pid).procs pid) =
          ((strides other : Int) - strides pid).sign := by
        refine procStrideComp_close ?_ ?_ (close other awake').2 (close other awake').1
        · exact (woken_keeps k pid other).1.trans (stepped.wrapped other (alive_of_runnable awake'))
        · exact (woken_keeps k pid pid).1.trans stride
      exact (less_iff compares).trans Int.ofNat_lt
  · rw [(procs other).2.1]
    exact stepped.bounded other

/-- A new process in a free slot starts at stride 0. -/
theorem Stepped.alloc {traced : Traced} (stepped : Stepped traced)
    (free : (traced.kernel.procs pid).state = .uninit) :
    Stepped ⟨Stride.setProc traced.kernel pid allocProc, Function.update traced.strides pid 0⟩ := by
  have asleep : (traced.kernel.procs pid).state ≠ .runnable := by
    rw [free]
    decide
  have apart : pid ≠ traced.kernel.current := by
    rintro rfl
    exact stepped.queued.current free
  have outside : pid ∉ queue traced.kernel := fun inside =>
    asleep ((stepped.queued.holds.mem pid).mp inside).1.1
  have awake (other : Nat) (awake : Runnable (Stride.setProc traced.kernel pid allocProc) other) :
      other ≠ pid ∧ Runnable traced.kernel other := by
    by_cases here : other = pid
    · subst here
      have state := awake.1
      simp [Stride.setProc, allocProc] at state
    · exact ⟨here, by simpa [Stride.setProc, here] using awake.1, awake.2⟩
  refine ⟨stepped.queued.away asleep apart (by decide), fun other alive => ?_, fun p q awakeP awakeQ => ?_, ?_,
    fun other => ?_⟩
  · by_cases here : other = pid
    · simp [Stride.setProc, here, allocProc] at alive
    · simpa [Stride.setProc, here] using stepped.wrapped other (by simpa [Stride.setProc, here] using alive)
  · obtain ⟨apartP, awakeP⟩ := awake p awakeP
    obtain ⟨apartQ, awakeQ⟩ := awake q awakeQ
    simpa [apartP, apartQ] using stepped.spread p q awakeP awakeQ
  · refine stepped.ordered.congr fun other inside => Function.update_of_ne ?_ _ _
    rintro rfl
    exact outside inside
  · by_cases here : other = pid
    · have zero : (0 : BitVec 32) ≤ bigStride := by decide
      simpa [Stride.setProc, here, allocProc] using zero
    · simpa [Stride.setProc, here] using stepped.bounded other

/-- Before the choice the current process is back in the order. -/
theorem Stepped.requeue {traced : Traced} (stepped : Stepped traced) :
    Heap.Ordered traced.strides (Stride.requeue traced.kernel).rq.lab6RunPool ∧
      ∀ pid, ((Stride.requeue traced.kernel).procs pid).lab6Stride = (traced.kernel.procs pid).lab6Stride ∧
        ((Stride.requeue traced.kernel).procs pid).lab6Priority = (traced.kernel.procs pid).lab6Priority := by
  obtain ⟨k, strides⟩ := traced
  have keeps (pid : Nat) : ((rested k).procs pid).lab6Stride = (k.procs pid).lab6Stride ∧
      ((rested k).procs pid).lab6Priority = (k.procs pid).lab6Priority := by
    by_cases here : pid = k.current <;> simp [rested, Stride.setProc, here]
  rcases requeue_cases k with ⟨awake, same⟩ | ⟨-, same⟩
  · simp only [same]
    refine ⟨stepped.ordered.insert fun other inside => ?_, fun pid => ?_⟩
    · have awake' : Runnable k other := ((stepped.queued.holds.mem other).mp inside).1
      have compares : procStrideComp ((rested k).procs other) ((rested k).procs k.current) =
          ((strides other : Int) - strides k.current).sign := by
        refine procStrideComp_close ?_ ?_ (stepped.spread _ _ awake' awake) (stepped.spread _ _ awake awake')
        · exact (keeps other).1.trans (stepped.wrapped other (alive_of_runnable awake'))
        · exact (keeps k.current).1.trans (stepped.wrapped k.current (alive_of_runnable awake))
      exact (less_iff compares).trans Int.ofNat_lt
    · obtain ⟨stride, priority⟩ := strideEnqueue_keeps (rested k) k.current pid
      exact ⟨stride.trans (keeps pid).1, priority.trans (keeps pid).2⟩
  · simp only [same]
    exact ⟨stepped.ordered, keeps⟩

theorem Stepped.requeue_compares {traced : Traced} (stepped : Stepped traced)
    (awake : Runnable traced.kernel p) (awake' : Runnable traced.kernel q) :
    procStrideComp ((Stride.requeue traced.kernel).procs p) ((Stride.requeue traced.kernel).procs q) =
      ((traced.strides p : Int) - traced.strides q).sign := by
  obtain ⟨-, keeps⟩ := stepped.requeue
  exact procStrideComp_close ((keeps p).1.trans (stepped.wrapped p (alive_of_runnable awake)))
    ((keeps q).1.trans (stepped.wrapped q (alive_of_runnable awake'))) (stepped.spread p q awake awake')
    (stepped.spread q p awake' awake)

/-- The process that `schedule` takes had the least stride, and its pass keeps it close. -/
theorem Stepped.schedule {traced : Traced} (stepped : Stepped traced) :
    ∃ after, Stride.schedule traced.kernel = some after ∧
      Stepped ⟨after, stridesAfter traced .schedule⟩ ∧
      Ranked traced.strides (Stride.requeue traced.kernel) ∧
      ∀ next, (Stride.requeue traced.kernel).rq.lab6RunPool.root = some next → after.current = next ∧
        ∀ pid ∈ queue (Stride.requeue traced.kernel), traced.strides next ≤ traced.strides pid := by
  obtain ⟨k, strides⟩ := traced
  obtain ⟨holds, states⟩ := stepped.queued.requeue
  obtain ⟨ordered, keeps⟩ := stepped.requeue
  obtain ⟨after, ran, queued, chosen⟩ := stepped.queued.schedule
  have awake (pid : Nat) (inside : pid ∈ queue (Stride.requeue k)) : Runnable k pid := (holds.mem pid).mp inside
  have ranked : Ranked strides (Stride.requeue k) :=
    ranked_of_sign (fun p inside q inside' => stepped.spread p q (awake p inside) (awake q inside'))
      fun p inside q inside' => stepped.requeue_compares (awake p inside) (awake q inside')
  refine ⟨after, ran, ?_, ranked, fun next root => ⟨?_, fun pid inside => ordered.root_le root inside⟩⟩
  · rcases chosen with ⟨root, rfl⟩ | ⟨next, root, awakeNext, rfl⟩
    · simp only [stridesAfter, root]
      refine ⟨queued, fun pid alive => ?_, fun p q awakeP awakeQ => ?_, ordered, fun pid => ?_⟩
      · exact (keeps pid).1.trans (stepped.wrapped pid (states pid ▸ alive))
      · exact stepped.spread p q ⟨(states p).symm.trans awakeP.1, awakeP.2⟩
          ⟨(states q).symm.trans awakeQ.1, awakeQ.2⟩
      · exact (keeps pid).2 ▸ stepped.bounded pid
    · simp only [stridesAfter, root]
      have least (pid : Nat) (awake' : Runnable k pid) : strides next ≤ strides pid :=
        ordered.root_le root ((holds.mem pid).mpr awake')
      have small : (pass ((Stride.requeue k).procs next).lab6Priority).toNat ≤ bigStride.toNat := by
        rw [(keeps next).2]
        exact (pass_bounds (stepped.bounded next)).2
      have procs (pid : Nat) (apart : pid ≠ next) :
          (taken (Stride.requeue k) next).procs pid = (Stride.requeue k).procs pid :=
        Function.update_of_ne apart ..
      have mine : (taken (Stride.requeue k) next).procs next = { (Stride.requeue k).procs next with
          lab6Stride := ((Stride.requeue k).procs next).lab6Stride +
            pass ((Stride.requeue k).procs next).lab6Priority } := Function.update_self ..
      have state (pid : Nat) : ((taken (Stride.requeue k) next).procs pid).state = (k.procs pid).state := by
        by_cases here : pid = next
        · rw [here, mine, ← states next]
        · rw [procs pid here, states pid]
      have awake' (pid : Nat) (awake : Runnable (taken (Stride.requeue k) next) pid) : Runnable k pid :=
        ⟨(state pid).symm.trans awake.1, awake.2⟩
      refine ⟨queued, fun pid alive => ?_, fun p q awakeP awakeQ => ?_, ?_, fun pid => ?_⟩
      · by_cases here : pid = next
        · subst here
          simp only [mine, Function.update_self, (keeps pid).1]
          rw [stepped.wrapped pid (alive_of_runnable awakeNext), BitVec.ofNat_add, BitVec.ofNat_toNat,
            BitVec.setWidth_eq]
        · rw [state] at alive
          simp only [procs pid here, Function.update_of_ne here, (keeps pid).1]
          exact stepped.wrapped pid alive
      · have awakeP := awake' p awakeP
        have awakeQ := awake' q awakeQ
        have spread : strides p ≤ strides q + bigStride.toNat := stepped.spread p q awakeP awakeQ
        have leastP := least p awakeP
        have leastQ := least q awakeQ
        by_cases hereP : p = next <;> by_cases hereQ : q = next
        · simp only [hereP, hereQ]
          exact Nat.le_add_right _ _
        · simp only [hereP, Function.update_self, Function.update_of_ne hereQ]
          omega
        · subst hereQ
          simp only [Function.update_of_ne hereP, Function.update_self]
          omega
        · simp only [Function.update_of_ne hereP, Function.update_of_ne hereQ]
          exact spread
      · have removed : Heap.Ordered strides (taken (Stride.requeue k) next).rq.lab6RunPool :=
          ordered.remove_root holds.distinct root fun inner inside apart other inside' apart' => by
            have compares := stepped.requeue_compares (awake inner inside) (awake other inside')
            rw [← procs inner apart, ← procs other apart'] at compares
            exact (less_iff compares).trans Int.ofNat_lt
        refine removed.congr fun pid inside => Function.update_of_ne ?_ _ _
        rintro rfl
        have erased : (queue (Stride.requeue k)).erase pid = queue (taken (Stride.requeue k) pid) :=
          (Heap.remove_entries holds.distinct pid).symm
        have inside' : pid ∈ (queue (Stride.requeue k)).erase pid := erased ▸ inside
        exact (holds.distinct.mem_erase_iff.mp inside').1 rfl
      · by_cases here : pid = next
        · subst here
          simp only [mine, (keeps pid).2]
          exact stepped.bounded pid
        · simp only [procs pid here, (keeps pid).2]
          exact stepped.bounded pid
  · rcases chosen with ⟨root', rfl⟩ | ⟨next', root', -, rfl⟩
    · rw [root] at root'
      cases root'
    · rw [root] at root'
      cases root'
      rfl

/-! ## Whole runs -/

theorem Stepped.good {before after : Traced} (stepped : Stepped after) (other : event ≠ .schedule) :
    Good before event after :=
  ⟨stepped.ranked, fun same => absurd same other, fun pid => (pass_bounds (stepped.bounded pid)).1⟩

/-- The current process stops, asleep or dead. -/
theorem Stepped.stop {traced : Traced} (stepped : Stepped traced) (busy : running traced.kernel)
    (stops : proc.state ≠ .runnable) (alive : proc.state ≠ .uninit)
    (kept : proc.lab6Stride = (traced.kernel.procs traced.kernel.current).lab6Stride ∧
      proc.lab6Priority = (traced.kernel.procs traced.kernel.current).lab6Priority) :
    Stepped ⟨Stride.setProc traced.kernel traced.kernel.current proc, traced.strides⟩ := by
  simp only [running, Bool.and_eq_true, decide_eq_true_eq] at busy
  exact stepped.setProc (stepped.queued.stop busy.2 alive) stepped.queued.current kept.1
    (fun awake => absurd awake stops) (kept.2 ▸ stepped.bounded _)

/-- What an event that does not fail leaves behind. -/
def Settled (traced : Traced) (event : Event) : Prop :=
  ∃ k, Stride.step traced.kernel event = some k ∧ Stepped ⟨k, stridesAfter traced event⟩

theorem create_settled {traced : Traced} (stepped : Stepped traced)
    (meets : Meets traced (.create pid)) : Settled traced (.create pid) := by
  by_cases free : (traced.kernel.procs pid).state = .uninit
  · have stepped' := stepped.alloc free
    have fresh : (Stride.setProc traced.kernel pid allocProc).procs pid = allocProc := Function.update_self ..
    have state : ((Stride.setProc traced.kernel pid allocProc).procs pid).state = .uninit := by
      rw [fresh]
      rfl
    have stride : ((Stride.setProc traced.kernel pid allocProc).procs pid).lab6Stride =
        BitVec.ofNat 32 (Function.update traced.strides pid 0 pid) := by
      rw [fresh, Function.update_self]
      rfl
    obtain ⟨after, ran, stepped''⟩ := stepped'.wake (by simp [state]) (by simp [state]) stride
      fun other awake => by
        by_cases here : other = pid
        · subst here
          exact ⟨Nat.le_add_right _ _, Nat.le_add_right _ _⟩
        · have awake' : Runnable traced.kernel other :=
            ⟨by simpa [Stride.setProc, here] using awake.1, awake.2⟩
          simpa [here] using meets other awake'
    exact ⟨after, by simp only [Stride.step, free, if_true, ran], by simpa only [stridesAfter, free, if_true]⟩
  · exact ⟨traced.kernel, by simp only [Stride.step, free, if_false], by simpa only [stridesAfter, free, if_false]⟩

theorem wake_settled {traced : Traced} (stepped : Stepped traced) (meets : Meets traced (.wake pid))
    (alive : (traced.kernel.procs pid).state ≠ .zombie) : Settled traced (.wake pid) := by
  cases state : (traced.kernel.procs pid).state with
  | uninit => exact ⟨traced.kernel, by simp [Stride.step, state], stepped⟩
  | zombie => exact absurd state alive
  | runnable => exact ⟨traced.kernel, by simp [Stride.step, wakeupProc, state], stepped⟩
  | sleeping =>
    obtain ⟨after, ran, stepped'⟩ := stepped.wake alive (by simp [state])
      (stepped.wrapped pid (by simp [state])) (meets state)
    exact ⟨after, by simp [Stride.step, state, ran], stepped'⟩

theorem reap_settled {traced : Traced} (stepped : Stepped traced) (pid : Nat) : Settled traced (.reap pid) := by
  by_cases dead : (traced.kernel.procs pid).state = .zombie ∧ pid ≠ traced.kernel.current
  · have asleep : (traced.kernel.procs pid).state ≠ .runnable := by simp [dead.1]
    refine ⟨Stride.setProc traced.kernel pid allocProc, by simp only [Stride.step, if_pos dead],
      stepped.keep (stepped.queued.away asleep dead.2 (by decide)) rfl (fun other => ?_)
        (fun other awake => ?_) fun other => ?_⟩
    · by_cases here : other = pid
      · simp [Stride.setProc, here, allocProc]
      · simp only [Stride.setProc, Function.update_of_ne here, and_true]
        exact Decidable.em _
    · by_cases here : other = pid
      · subst here
        have state := awake.1
        simp [Stride.setProc, allocProc] at state
      · exact ⟨by simpa [Stride.setProc, here] using awake.1, awake.2⟩
    · by_cases here : other = pid
      · have zero : (0 : BitVec 32) ≤ bigStride := by decide
        simpa [Stride.setProc, here, allocProc] using zero
      · simpa [Stride.setProc, here] using stepped.bounded other
  · exact ⟨traced.kernel, by simp only [Stride.step, if_neg dead], stepped⟩

theorem setPriority_settled {traced : Traced} (stepped : Stepped traced)
    (meets : Meets traced (.setPriority priority)) : Settled traced (.setPriority priority) := by
  refine ⟨lab6SetPriority traced.kernel priority, rfl, stepped.setProc (stepped.queued.setProc rfl id)
    stepped.queued.current rfl id ?_⟩
  by_cases zero : priority = 0
  · have one : (1 : BitVec 32) ≤ bigStride := by decide
    simpa only [zero, if_true] using one
  · have small : priority ≤ bigStride := meets
    simpa only [zero, if_false] using small

theorem tick_settled {traced : Traced} (stepped : Stepped traced) : Settled traced .tick := by
  refine ⟨schedClassProcTick traced.kernel traced.kernel.current, rfl, ?_⟩
  by_cases idle : traced.kernel.current = idleproc
  · rw [schedClassProcTick, if_neg (by simpa using idle)]
    exact stepped.setProc (stepped.queued.setProc rfl id) stepped.queued.current rfl id (stepped.bounded _)
  · rw [schedClassProcTick, if_pos idle]
    exact stepped.setProc (stepped.queued.setProc rfl id) stepped.queued.current rfl id (stepped.bounded _)

theorem step_stepped (traced : Traced) (event : Event) (stepped : Stepped traced) (meets : Meets traced event) :
    Outcome traced event ∧ ∀ after, traced.step event = some after → Stepped after := by
  have settles (settled : Settled traced event) (other : event ≠ .schedule) :
      Outcome traced event ∧ ∀ after, traced.step event = some after → Stepped after := by
    obtain ⟨k, ran, stepped'⟩ := settled
    have whole : traced.step event = some ⟨k, stridesAfter traced event⟩ := by
      simp only [Traced.step, ran, Option.map_some]
    simp only [Outcome, whole]
    refine ⟨stepped'.good other, ?_⟩
    rintro _ ⟨⟩
    exact stepped'
  cases event with
  | create pid => exact settles (create_settled stepped meets) (by simp)
  | sleep waitState =>
    refine settles ?_ (by simp)
    by_cases busy : running traced.kernel
    · have stepped' : Stepped ⟨sleepIn traced.kernel waitState, traced.strides⟩ :=
        stepped.stop busy (by simp) (by simp) ⟨rfl, rfl⟩
      exact ⟨_, by simp only [Stride.step, busy, if_true], stepped'⟩
    · exact ⟨_, by simp only [Stride.step, busy, Bool.false_eq_true, if_false], stepped⟩
  | exit =>
    refine settles ?_ (by simp)
    by_cases busy : running traced.kernel
    · have stepped' : Stepped ⟨zombify traced.kernel, traced.strides⟩ :=
        stepped.stop busy (by simp) (by simp) ⟨rfl, rfl⟩
      exact ⟨_, by simp only [Stride.step, busy, if_true], stepped'⟩
    · exact ⟨_, by simp only [Stride.step, busy, Bool.false_eq_true, if_false], stepped⟩
  | wake pid =>
    by_cases dead : (traced.kernel.procs pid).state = .zombie
    · have whole : traced.step (.wake pid) = none := by simp [Traced.step, Stride.step, wakeupProc, dead]
      simp only [Outcome, whole]
      exact ⟨⟨pid, rfl, dead⟩, fun after ran => by cases ran⟩
    · exact settles (wake_settled stepped meets dead) (by simp)
  | reap pid => exact settles (reap_settled stepped pid) (by simp)
  | setPriority priority => exact settles (setPriority_settled stepped meets) (by simp)
  | tick => exact settles (tick_settled stepped) (by simp)
  | schedule =>
    obtain ⟨k, ran, stepped', ranked, picks⟩ := stepped.schedule
    have whole : traced.step .schedule = some ⟨k, stridesAfter traced .schedule⟩ := by
      simp only [Traced.step, Stride.step, ran, Option.map_some]
    simp only [Outcome, whole]
    refine ⟨⟨stepped'.ranked, fun _ => ⟨ranked, picks⟩, fun pid => (pass_bounds (stepped'.bounded pid)).1⟩, ?_⟩
    rintro _ ⟨⟩
    exact stepped'

def Traced.boot : Traced := ⟨Stride.boot, fun _ => 0⟩

theorem boot_stepped : Stepped Traced.boot := by
  have zero : (0 : BitVec 32) ≤ bigStride := by decide
  have nobody (pid : Nat) : ¬ Runnable Stride.boot pid := by
    rintro ⟨state, apart⟩
    simp [Stride.boot, apart, allocProc] at state
  refine ⟨⟨⟨Multiset.nodup_zero, fun pid => ?_, rfl, fun pid inside => ?_⟩, rfl, ?_⟩, fun pid _ => ?_,
    fun p _ awake => absurd awake (nobody p), trivial, fun pid => ?_⟩
  · have empty : queue Stride.boot = 0 := rfl
    simp only [Traced.boot, empty, Multiset.notMem_zero, Set.mem_ofPred_eq, nobody, false_and]
  · exact absurd inside (Multiset.notMem_zero pid)
  · simp [Traced.boot, Stride.boot]
  · by_cases idle : pid = idleproc <;> simp [Traced.boot, Stride.boot, idle, allocProc]
  · by_cases idle : pid = idleproc <;> simpa [Traced.boot, Stride.boot, idle, allocProc] using zero

/-- In every run in which no process comes in from too far away, the comparison
orders the run queue by the true strides and `schedule` takes the least. -/
theorem strides_ordered (events : List Event) (meets : Along Traced.step Meets .boot events) :
    Along Traced.step Outcome .boot events :=
  along_of_invariant step_stepped boot_stepped meets

/-- Process 2 gets priority 4, process 1 priority 2. -/
def twoShares : List Event := [.create 1, .create 2, .schedule, .setPriority 4, .schedule, .setPriority 2]

theorem twoShares_lawful : Along Traced.step Meets .boot twoShares := by
  refine ⟨fun other awake => ?_, fun _ ran => ⟨fun other awake => ?_, fun _ _ => ⟨trivial, fun _ _ =>
    ⟨?_, fun _ _ => ⟨trivial, fun _ _ => ⟨?_, fun _ _ => trivial⟩⟩⟩⟩⟩⟩
  · have state := awake.1
    simp [Traced.boot, boot, allocProc, awake.2] at state
  · cases ran
    have first : stridesAfter .boot (.create 1) other = 0 := by
      simp only [stridesAfter]
      split_ifs <;> simp [Traced.boot]
    exact first.trans_le (Nat.zero_le _)
  · have small : (4 : BitVec 32) ≤ bigStride := by decide
    exact small
  · have small : (2 : BitVec 32) ≤ bigStride := by decide
    exact small

theorem strides_ordered_shares : Along Traced.step Outcome .boot twoShares := strides_ordered twoShares twoShares_lawful

/-- One process runs alone for three passes and creates a second one. -/
def late : Option Traced := run Traced.step .boot [.create 1, .schedule, .schedule, .schedule, .create 2]

theorem late_reached : late.isSome := by decide +kernel

def lateState : Traced := late.get late_reached

theorem late_taken : (lateState.step .schedule).isSome := by decide +kernel

/-- The process is taken again, three passes ahead of the new one; and a large
priority leaves no pass. -/
theorem late_process_overtaken :
    (∃ before after, late = some before ∧ before.step .schedule = some after ∧ after.kernel.current = 1 ∧
      2 ∈ queue (requeue before.kernel) ∧ before.strides 1 = before.strides 2 + 3 * bigStride.toNat ∧
      ¬ Outcome before .schedule) ∧
    pass (bigStride + 1) = 0 := by
  have first : 1 ∈ queue (requeue lateState.kernel) := by decide +kernel
  have second : 2 ∈ queue (requeue lateState.kernel) := by decide +kernel
  have current : ((lateState.step .schedule).get late_taken).kernel.current = 1 := by decide +kernel
  have apart : lateState.strides 1 = lateState.strides 2 + 3 * bigStride.toNat := by decide +kernel
  have ran : lateState.step .schedule = some ((lateState.step .schedule).get late_taken) :=
    (Option.some_get late_taken).symm
  refine ⟨⟨lateState, (lateState.step .schedule).get late_taken, (Option.some_get late_reached).symm,
    ran, current, second, apart, fun outcome => ?_⟩, by decide⟩
  generalize (lateState.step .schedule).get late_taken = after at ran
  rw [Outcome, ran] at outcome
  have close := (outcome.picks rfl).1.spread 1 first 2 second
  rw [apart, toNat_bigStride] at close
  omega

end Ucore.Stride
