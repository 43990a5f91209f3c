import Ucore.DeltaList
import Ucore.Sched

/-! The timer list is a delta list, and every timer in it is on time. The
history beside the kernel counts the ticks and says which tick each timer was
added for. -/
namespace Ucore.TimerProofs
open DeltaList Sched Runs

structure Timed where
  kernel : Kernel
  now : Nat
  due : TimerAddr → Nat

/-- The tick a timer is added for counts from now. -/
def added (timed : Timed) (addr : TimerAddr) (expires : Nat) : TimerAddr → Nat :=
  Function.update timed.due addr (timed.now + expires)

def step (timed : Timed) (event : Event) : Option Timed :=
  (Sched.step timed.kernel event).map fun k =>
    match event with
    | .tick => ⟨k, timed.now + 1, timed.due⟩
    | .addTimer n _ expires => ⟨k, timed.now, added timed (.other n) expires⟩
    | .sleep pid time => ⟨k, timed.now,
        if ready timed.kernel pid && time ≠ 0 then added timed (.stack pid) time else timed.due⟩
    | _ => ⟨k, timed.now, timed.due⟩

def boot (initial : Nat → Int) : Timed := ⟨Sched.boot initial, 0, fun _ => 0⟩

/-- Timers, sleeps and kills; `add_timer` gets a positive `unsigned int` and a
timer that `timer_init` has just set up. -/
def Lawful (timed : Timed) : Event → Prop
  | .up _ _ | .down _ _ | .tryDown _ _ => False
  | .addTimer n _ expires => 0 < expires ∧ expires < 2 ^ 32 ∧ ¬ listed timed.kernel (.other n)
  | .sleep _ time => time < 2 ^ 32
  | _ => True

/-- The event adds the timer. -/
def Adds (timed : Timed) : Event → TimerAddr → Prop
  | .addTimer n _ _, addr => addr = .other n
  | .sleep pid time, addr => addr = .stack pid ∧ ready timed.kernel pid ∧ time ≠ 0
  | _, _ => False

/-- The event deletes the timer, or the timer is due on it. -/
def Ends (timed : Timed) : Event → TimerAddr → Prop
  | .delTimer n, addr => addr = .other n
  | .resume pid, addr => addr = .stack pid ∧ awake timed.kernel pid
  | .tick, addr => timed.due addr = timed.now + 1
  | _, _ => False

/-- What an event does to the timer list. -/
structure OnTime (before : Timed) (event : Event) (after : Timed) : Prop where
  first : ∀ timer, after.kernel.timerList.head? = some timer → timer.expires ≠ 0
  /-- The sum of `expires` up to a timer is the number of ticks it has left. -/
  remaining : ∀ sooner timer rest, after.kernel.timerList = sooner ++ timer :: rest →
    after.now + ((sooner.map Timer.expires).sum + timer.expires) = after.due timer.addr
  /-- A timer leaves the list on the tick it was added for, or when it is deleted. -/
  stays : ∀ addr, listed after.kernel addr ↔
    Adds before event addr ∨ listed before.kernel addr ∧ ¬ Ends before event addr
  kept : ∀ addr, listed before.kernel addr → after.due addr = before.due addr
  /-- A timer that leaves the list on a tick has its process woken. -/
  wakes : event = .tick → ∀ timer ∈ before.kernel.timerList, ¬ listed after.kernel timer.addr →
    awake after.kernel timer.proc

def ticks (events : List Event) : Nat := events.countP fun event => event matches .tick

/-- Nothing but its own tick ends the timer. -/
def Spares (addr : TimerAddr) (timed : Timed) (event : Event) : Prop :=
  Ends timed event addr → event = .tick

/-- A timer that is not deleted stays listed before its tick, and is gone after it. -/
def Fires (timed : Timed) (events : List Event) : Prop :=
  ∀ addr last, listed timed.kernel addr → Along step (Spares addr) timed events →
    run step timed events = some last →
    (timed.now + ticks events < timed.due addr → listed last.kernel addr) ∧
    (timed.now + ticks events = timed.due addr → events.getLast? = some .tick →
      ¬ listed last.kernel addr)

/-! ## The timer list as a delta list -/

def entry (timer : Timer) : (TimerAddr × Nat) × Nat := ((timer.addr, timer.proc), timer.expires)

def deltas (timers : List Timer) : List ((TimerAddr × Nat) × Nat) := timers.map entry

theorem deltas_addLoop (timer : Timer) (timers : List Timer) :
    deltas (addLoop timer timers) = insert (timer.addr, timer.proc) timer.expires (deltas timers) := by
  induction timers generalizing timer with
  | nil => rfl
  | cons next rest ih =>
    by_cases sooner : timer.expires < next.expires
    · simp [addLoop, deltas, entry, DeltaList.insert, sooner]
    · simpa [addLoop, deltas, entry, DeltaList.insert, sooner] using
        ih { timer with expires := timer.expires - next.expires }

/-- No running sum leaves 32 bits. -/
def Fits (base : Nat) (timers : List Timer) : Prop :=
  ∀ alarm ∈ times base (deltas timers), alarm.2 < 2 ^ 32

theorem deltas_handOn (fits : Fits (base + expires) timers) :
    deltas (handOn expires timers) = inherit expires (deltas timers) := by
  cases timers with
  | nil => rfl
  | cons next rest =>
    have small : base + expires + next.expires < 2 ^ 32 := fits _ List.mem_cons_self
    have whole : (next.expires + expires) % 2 ^ 32 = next.expires + expires :=
      Nat.mod_eq_of_lt (by omega)
    simp only [handOn, deltas, List.map_cons, entry, inherit, whole]

theorem deltas_delLoop (addr : TimerAddr) (fits : Fits base timers) :
    deltas (delLoop addr timers) = remove (fun alarm => alarm.1 = addr) (deltas timers) := by
  induction timers generalizing base with
  | nil => rfl
  | cons timer rest ih =>
    have fits' : Fits (base + timer.expires) rest := fun alarm listed =>
      fits alarm (List.mem_cons_of_mem _ listed)
    by_cases found : timer.addr = addr
    · by_cases zero : timer.expires = 0
      · cases rest <;> simp [delLoop, deltas, entry, remove, inherit, found, zero]
      · have handed := deltas_handOn fits'
        simpa [delLoop, deltas, entry, remove, found, zero] using handed
    · simpa [delLoop, deltas, entry, remove, found] using ih fits'

theorem listed_iff {k : Kernel} : listed k addr ↔ addr ∈ k.timerList.map Timer.addr := by
  simp [listed]

/-- Which timer is for which process. -/
def names (timers : List Timer) : List (TimerAddr × Nat) :=
  timers.map fun timer => (timer.addr, timer.proc)

theorem names_addLoop (timer : Timer) (timers : List Timer) :
    (names (addLoop timer timers)).Perm ((timer.addr, timer.proc) :: names timers) := by
  have keys := insert_perm_keys timer.expires (timer.addr, timer.proc) (deltas timers)
  rw [← deltas_addLoop] at keys
  simpa [names, deltas, entry, Function.comp_def] using keys

theorem addrs_addLoop (timer : Timer) (timers : List Timer) :
    ((addLoop timer timers).map Timer.addr).Perm (timer.addr :: timers.map Timer.addr) := by
  simpa [names, Function.comp_def] using (names_addLoop timer timers).map Prod.fst

theorem names_delLoop (addr : TimerAddr) (timers : List Timer) :
    names (delLoop addr timers) ⊆ names timers := by
  induction timers with
  | nil => exact List.Subset.refl _
  | cons timer rest ih =>
    by_cases found : timer.addr = addr
    · cases rest <;> by_cases zero : timer.expires = 0 <;> simp [delLoop, handOn, names, found, zero]
    · simpa [delLoop, names, found] using List.subset_cons_of_subset _ ih

theorem addrs_delLoop (addr : TimerAddr) (timers : List Timer) :
    (delLoop addr timers).map Timer.addr = (timers.map Timer.addr).erase addr := by
  induction timers with
  | nil => rfl
  | cons timer rest ih =>
    by_cases found : timer.addr = addr
    · cases rest <;> by_cases zero : timer.expires = 0 <;> simp [delLoop, handOn, found, zero]
    · simp [delLoop, found, ih]

/-- A listed timer has a time. -/
theorem listed_times {k : Kernel} (base : Nat) :
    listed k addr ↔ ∃ proc delay, ((addr, proc), delay) ∈ times base (deltas k.timerList) := by
  have keys : ((times base (deltas k.timerList)).map Prod.fst).map Prod.fst =
      k.timerList.map Timer.addr := by
    simp [times_keys, deltas, entry, Function.comp_def]
  rw [listed_iff, ← keys]
  simp

/-! ## The invariant -/

structure Timely (timed : Timed) : Prop where
  distinct : (timed.kernel.timerList.map Timer.addr).Nodup
  pending : Pending (deltas timed.kernel.timerList)
  onTime : ∀ alarm ∈ times 0 (deltas timed.kernel.timerList),
    timed.due alarm.1.1 = timed.now + alarm.2 ∧ alarm.2 < 2 ^ 32

/-- The process is no zombie and in no sleep that a signal cannot end. -/
def Wakeable (proc : Proc) : Prop :=
  proc.state ≠ .zombie ∧ (proc.waitState = 0 ∨ interruptible proc.waitState)

/-- A process sleeps in nothing but `do_sleep`. -/
structure Sleepers (k : Kernel) : Prop where
  procs : ∀ pid, Wakeable (k.procs pid)
  frames : ∀ pid, k.frames pid = none ∨ k.frames pid = some .sleep
  stack : ∀ pid, listed k (.stack pid) → k.frames pid = some .sleep

theorem Timely.fits (timely : Timely timed) : Fits 0 timed.kernel.timerList :=
  fun alarm listed => (timely.onTime alarm listed).2

theorem Timely.first (timely : Timely timed) :
    ∀ timer, timed.kernel.timerList.head? = some timer → timer.expires ≠ 0 := by
  intro timer head
  refine timely.pending (entry timer) ?_
  simp [deltas, head]

theorem Timely.remaining (timely : Timely timed)
    (split : timed.kernel.timerList = sooner ++ timer :: rest) :
    timed.now + ((sooner.map Timer.expires).sum + timer.expires) = timed.due timer.addr := by
  have listed : ((timer.addr, timer.proc), (sooner.map Timer.expires).sum + timer.expires) ∈
      times 0 (deltas timed.kernel.timerList) := by
    refine mem_times.mpr ⟨deltas sooner, timer.expires, deltas rest, ?_, ?_⟩
    · simp [split, deltas, entry]
    · have same : ((deltas sooner).map Prod.snd) = sooner.map Timer.expires := by
        simp [deltas, entry, Function.comp_def]
      rw [same]
      omega
  exact (timely.onTime _ listed).1.symm

/-! ## Each event -/

/-- Some of these processes were woken, and nothing else changed. -/
structure Wakes (who : Nat → Prop) (before after : Kernel) : Prop where
  timers : after.timerList = before.timerList
  frames : after.frames = before.frames
  sems : after.sems = before.sems
  procs : ∀ pid, ((after.procs pid).state = (before.procs pid).state ∧
      (after.procs pid).waitState = (before.procs pid).waitState) ∨
    who pid ∧ (after.procs pid).state = .runnable ∧ (after.procs pid).waitState = 0

theorem Wakes.refl (who : Nat → Prop) (k : Kernel) : Wakes who k k :=
  ⟨rfl, rfl, rfl, fun _ => .inl ⟨rfl, rfl⟩⟩

theorem Wakes.awake (wakes : Wakes who before after) (running : awake before pid) : awake after pid := by
  rcases wakes.procs pid with ⟨state, -⟩ | ⟨-, state, -⟩
  · simpa [Sched.awake, state] using running
  · simpa [Sched.awake] using state

theorem Wakes.mono (wakes : Wakes who before after) (more : ∀ pid, who pid → other pid) :
    Wakes other before after :=
  ⟨wakes.timers, wakes.frames, wakes.sems, fun pid =>
    (wakes.procs pid).imp_right fun woken => ⟨more pid woken.1, woken.2⟩⟩

theorem Wakes.trans (first : Wakes who before between) (second : Wakes who between after) :
    Wakes who before after := by
  refine ⟨second.timers.trans first.timers, second.frames.trans first.frames,
    second.sems.trans first.sems, fun pid => ?_⟩
  rcases second.procs pid with ⟨state, waitState⟩ | woken
  · rw [state, waitState]
    exact first.procs pid
  · exact .inr woken

theorem wakeupProc_wakes {k : Kernel} (alive : (k.procs pid).state ≠ .zombie) :
    ∃ after, wakeupProc k pid = some after ∧ Wakes (· = pid) k after ∧ awake after pid := by
  have asleep : Wakes (· = pid) k
      (setProc k pid { k.procs pid with state := .runnable, waitState := 0 }) := by
    refine ⟨rfl, rfl, rfl, fun other => ?_⟩
    by_cases same : other = pid
    · subst same
      exact .inr (by simp [setProc])
    · exact .inl (by simp [setProc, same])
  cases state : (k.procs pid).state with
  | zombie => exact absurd state alive
  | runnable => exact ⟨k, by simp [wakeupProc, state], .refl _ k, by simpa [awake] using state⟩
  | uninit => exact ⟨_, by simp [wakeupProc, state], asleep, by simp [awake, setProc]⟩
  | sleeping => exact ⟨_, by simp [wakeupProc, state], asleep, by simp [awake, setProc]⟩

theorem Wakes.wakeable (wakes : Wakes who before after) (wakeable : Wakeable (before.procs pid)) :
    Wakeable (after.procs pid) := by
  rcases wakes.procs pid with ⟨state, waitState⟩ | ⟨-, state, waitState⟩
  · rw [Wakeable, state, waitState]
    exact wakeable
  · exact ⟨by simp [state], .inl waitState⟩

theorem expire_wakes {timer : Timer} (wakeable : Wakeable (k.procs timer.proc)) :
    ∃ after, expire k timer = some after ∧ Wakes (· = timer.proc) k after ∧ awake after timer.proc := by
  obtain ⟨alive, signal⟩ := wakeable
  obtain ⟨after, woke, wakes⟩ := wakeupProc_wakes alive
  refine ⟨after, ?_, wakes⟩
  rcases signal with none | signal
  · simp [expire, none, woke]
  · simp [expire, signal, woke]

/-- The loop drops the timers with nothing left and wakes their processes. -/
theorem expireLoop_wakes (timers : List Timer) (wakeable : ∀ timer ∈ timers, Wakeable (k.procs timer.proc)) :
    ∃ after, expireLoop k timers = some after ∧
      after.timerList = timers.dropWhile (fun timer => timer.expires = 0) ∧
      Wakes (fun pid => ∃ timer ∈ timers, timer.proc = pid) k { after with timerList := k.timerList } ∧
      ∀ timer ∈ timers.takeWhile (fun timer => timer.expires = 0), awake after timer.proc := by
  induction timers generalizing k with
  | nil => exact ⟨_, rfl, rfl, ⟨rfl, rfl, rfl, fun _ => .inl ⟨rfl, rfl⟩⟩, by simp⟩
  | cons timer rest ih =>
    by_cases zero : timer.expires = 0
    · obtain ⟨between, expired, wakes, ran⟩ := expire_wakes (wakeable timer List.mem_cons_self)
      obtain ⟨after, looped, left, wakes', ran'⟩ := ih fun other inRest =>
        wakes.wakeable (wakeable other (List.mem_cons_of_mem _ inRest))
      have first := wakes.mono (fun pid woken => ⟨timer, List.mem_cons_self, woken.symm⟩ :
        ∀ pid, pid = timer.proc → ∃ other ∈ timer :: rest, other.proc = pid)
      have whole := first.trans (wakes'.mono fun pid ⟨other, inRest, woken⟩ =>
        ⟨other, List.mem_cons_of_mem _ inRest, woken⟩)
      refine ⟨after, by simp [expireLoop, zero, expired, looped], by simpa [zero] using left,
        ⟨rfl, whole.frames, whole.sems, whole.procs⟩, fun other due => ?_⟩
      rcases List.mem_cons.mp (by simpa [zero] using due) with rfl | due
      · exact wakes'.awake ran
      · exact ran' other due
    · exact ⟨{ k with timerList := timer :: rest }, by simp only [expireLoop, zero, if_false],
        by simp [zero], ⟨rfl, rfl, rfl, fun _ => .inl ⟨rfl, rfl⟩⟩, by simp [zero]⟩

/-- A timer that is not listed is added for the tick it asks for. -/
theorem Timely.add (timely : Timely ⟨k, now, due⟩) (proc : Nat) (fresh : ¬ listed k addr) (positive : 0 < expires)
    (small : expires < 2 ^ 32) :
    ∃ after, addTimer k ⟨addr, proc, expires⟩ = some after ∧
      Timely ⟨after, now, added ⟨k, now, due⟩ addr expires⟩ ∧
      (∀ other, listed after other ↔ other = addr ∨ listed k other) ∧
      after = { k with timerList := addLoop ⟨addr, proc, expires⟩ k.timerList } := by
  have addrs := addrs_addLoop ⟨addr, proc, expires⟩ k.timerList
  have listed' (other : TimerAddr) :
      listed { k with timerList := addLoop ⟨addr, proc, expires⟩ k.timerList } other ↔
        other = addr ∨ listed k other := by
    simp only [listed_iff, addrs.mem_iff, List.mem_cons]
  refine ⟨_, by simp [addTimer, positive, fresh], ?_, listed', rfl⟩
  constructor
  · refine addrs.nodup_iff.mpr (List.nodup_cons.mpr ⟨?_, timely.distinct⟩)
    rwa [← listed_iff]
  · rw [deltas_addLoop]
    exact timely.pending.insert positive
  · intro alarm timed
    rw [deltas_addLoop, (times_insert 0 expires (addr, proc) _).mem_iff, List.mem_cons] at timed
    rcases timed with rfl | timed
    · exact ⟨by simp [added], by simpa using small⟩
    · have other : alarm.1.1 ≠ addr := by
        rintro rfl
        exact fresh ((listed_times 0).mpr ⟨alarm.1.2, alarm.2, timed⟩)
      simpa [added, other] using timely.onTime alarm timed

/-- Deleting a timer leaves all the others on time. -/
theorem Timely.delete (timely : Timely ⟨k, now, due⟩) (addr : TimerAddr) :
    Timely ⟨delTimer k addr, now, due⟩ ∧
      ∀ other, listed (delTimer k addr) other ↔ listed k other ∧ other ≠ addr := by
  have listed' (other : TimerAddr) :
      listed (delTimer k addr) other ↔ listed k other ∧ other ≠ addr := by
    simp only [listed_iff, delTimer, addrs_delLoop, timely.distinct.mem_erase_iff, and_comm]
  refine ⟨?_, listed'⟩
  constructor
  · simpa only [delTimer, addrs_delLoop] using timely.distinct.erase addr
  · rw [delTimer, deltas_delLoop addr timely.fits]
    exact timely.pending.remove _
  · intro alarm timed
    rw [delTimer, deltas_delLoop addr timely.fits, times_remove] at timed
    exact timely.onTime alarm (List.mem_of_mem_eraseP timed)

/-- What leaves the timer list alone leaves the timers on time. -/
theorem Timely.same (timely : Timely ⟨k, now, due⟩) (timers : after.timerList = k.timerList) :
    Timely ⟨after, now, due⟩ := by
  constructor
  · simpa only [timers] using timely.distinct
  · simpa only [timers] using timely.pending
  · simpa only [timers] using timely.onTime

/-- The timers whose tick it is leave the list, all of them and no others. -/
theorem Timely.tick (timely : Timely ⟨k, now, due⟩)
    (wakeable : ∀ timer ∈ k.timerList, Wakeable (k.procs timer.proc)) :
    ∃ after, runTimerList k = some after ∧ Timely ⟨after, now + 1, due⟩ ∧
      (∀ addr, listed after addr ↔ listed k addr ∧ due addr ≠ now + 1) ∧
      (∀ timer ∈ k.timerList, ¬ listed after timer.addr → awake after timer.proc) ∧
      Wakes (fun pid => ∃ timer ∈ k.timerList, timer.proc = pid) k { after with timerList := k.timerList } ∧
      names after.timerList ⊆ names k.timerList := by
  cases timers : k.timerList with
  | nil =>
    have empty : ∀ addr, ¬ listed k addr := by simp [listed, timers]
    refine ⟨k, by simp [runTimerList, timers], ⟨timely.distinct, timely.pending, ?_⟩,
      fun addr => by simp [empty addr], nofun,
      ⟨timers.symm, rfl, rfl, fun _ => .inl ⟨rfl, rfl⟩⟩, by simp [timers]⟩
    simp [timers, deltas, times]
  | cons head rest =>
    have positive : head.expires ≠ 0 := timely.first head (by simp [timers])
    rw [timers] at wakeable
    obtain ⟨after, looped, left, wakes, ran⟩ := expireLoop_wakes
      ({ head with expires := head.expires - 1 } :: rest) (by simpa using wakeable)
    have ticked : deltas ({ head with expires := head.expires - 1 } :: rest) =
        DeltaList.tick (deltas k.timerList) := by
      rw [timers]
      rfl
    have left' : deltas after.timerList = later (DeltaList.tick (deltas k.timerList)) := by
      rw [left, ← ticked, later, deltas, deltas, List.dropWhile_map]
      rfl
    have sooner {alarm delay} (timed : (alarm, delay) ∈ times 0 (deltas after.timerList)) :
        0 < delay ∧ (alarm, delay + 1) ∈ times 0 (deltas k.timerList) := by
      rw [left'] at timed
      have positive : 0 < delay := (pending_later _).lt_times timed
      exact ⟨positive, (mem_times_tick timely.pending).mpr (.inr ⟨positive, timed⟩)⟩
    have listed' (addr : TimerAddr) : listed after addr ↔ listed k addr ∧ due addr ≠ now + 1 := by
      constructor
      · intro inList
        obtain ⟨proc, delay, timed⟩ := (listed_times 0).mp inList
        obtain ⟨positive, timed⟩ := sooner timed
        obtain ⟨exact_tick, -⟩ := timely.onTime _ timed
        refine ⟨(listed_times 0).mpr ⟨proc, _, timed⟩, ?_⟩
        simp only at exact_tick
        omega
      · rintro ⟨inList, not_now⟩
        obtain ⟨proc, delay, timed⟩ := (listed_times 0).mp inList
        obtain ⟨exact_tick, -⟩ := timely.onTime _ timed
        have positive : 0 < delay := timely.pending.lt_times timed
        obtain ⟨rest, rfl⟩ : ∃ rest, delay = rest + 1 := ⟨delay - 1, by omega⟩
        rcases (mem_times_tick timely.pending).mp timed with ⟨rfl, -⟩ | ⟨-, timed⟩
        · exact absurd exact_tick not_now
        · exact (listed_times 0).mpr ⟨proc, rest, left' ▸ timed⟩
    have kept : names ({ head with expires := head.expires - 1 } :: rest) = names (head :: rest) := rfl
    refine ⟨after, by simp [runTimerList, timers, positive, looped], ⟨?_, ?_, fun alarm timed => ?_⟩,
      listed', fun timer inList gone => ?_, timers ▸ wakes.mono (by simp [timers]), ?_⟩
    · have distinct := timely.distinct
      rw [timers] at distinct
      refine List.Nodup.sublist ?_ distinct
      rw [left]
      exact (List.dropWhile_sublist _).map Timer.addr
    · rw [left']
      exact pending_later _
    · obtain ⟨exact_tick, small⟩ := timely.onTime _ (sooner timed).2
      simp only at exact_tick small
      exact ⟨by simp only; omega, by omega⟩
    · have inTicked : (timer.addr, timer.proc) ∈ names ({ head with expires := head.expires - 1 } :: rest) :=
        kept ▸ (List.mem_map_of_mem inList : (timer.addr, timer.proc) ∈ names (head :: rest))
      obtain ⟨ticked', inTicked, same⟩ := List.mem_map.mp inTicked
      obtain ⟨addr, proc⟩ := Prod.mk.inj same
      rw [← List.takeWhile_append_dropWhile (p := fun timer : Timer => timer.expires = 0)
        (l := { head with expires := head.expires - 1 } :: rest), List.mem_append] at inTicked
      rcases inTicked with expired | stays
      · exact proc ▸ ran ticked' expired
      · refine absurd (listed_iff.mpr ?_) gone
        rw [left, ← addr]
        exact List.mem_map_of_mem stays
    · rw [left, ← kept]
      exact ((List.dropWhile_sublist _).map _).subset

theorem doKill_wakes {k : Kernel} (alive : (k.procs pid).state ≠ .zombie) :
    ∃ after code, doKill k pid = some (after, code) ∧
      Wakes (fun other => other = pid ∧ interruptible (k.procs pid).waitState) k after := by
  have flagged (who : Nat → Prop) : Wakes who k (setProc k pid { k.procs pid with exiting := true }) := by
    refine ⟨rfl, rfl, rfl, fun other => .inl ?_⟩
    by_cases same : other = pid
    · subst same
      simp [setProc]
    · simp [setProc, same]
  by_cases none : (k.procs pid).state = .uninit
  · exact ⟨k, -eInval, by simp only [doKill, none, if_true], .refl _ k⟩
  by_cases exiting : (k.procs pid).exiting
  · exact ⟨k, -eKilled, by simp only [doKill, none, exiting, if_true, if_false], .refl _ k⟩
  by_cases signal : interruptible (k.procs pid).waitState
  · have alive' : ((setProc k pid { k.procs pid with exiting := true }).procs pid).state ≠ .zombie := by
      simpa [setProc] using alive
    obtain ⟨after, woke, wakes, -⟩ := wakeupProc_wakes alive'
    exact ⟨after, 0, by simp [doKill, none, exiting, setProc, signal, ← woke],
      (flagged _).trans (wakes.mono fun other woken => ⟨woken, signal⟩)⟩
  · exact ⟨_, 0, by simp [doKill, none, exiting, setProc, signal], flagged _⟩

/-- What leaves the calls alone and lists no sleeper's timer anew leaves the sleepers alone. -/
theorem Sleepers.keep (sleepers : Sleepers k) (procs : ∀ pid, Wakeable (after.procs pid))
    (frames : after.frames = k.frames)
    (stack : ∀ pid, listed after (.stack pid) → listed k (.stack pid)) : Sleepers after :=
  ⟨procs, fun pid => frames ▸ sleepers.frames pid,
    fun pid inList => frames ▸ sleepers.stack pid (stack pid inList)⟩

theorem Sleepers.sleep (sleepers : Sleepers k) (pid : Nat) (timers : List Timer)
    (stack : ∀ other, other ≠ pid → listed { k with timerList := timers } (.stack other) →
      listed k (.stack other)) :
    Sleepers { sleepIn k pid wtTimer .sleep with timerList := timers } := by
  refine ⟨fun other => ?_, fun other => ?_, fun other inList => ?_⟩ <;> by_cases same : other = pid
  · subst same
    have signal : interruptible wtTimer := by decide
    simp [sleepIn, setFrame, setProc, Wakeable, signal]
  · simpa [sleepIn, setFrame, setProc, same] using sleepers.procs other
  · simp [sleepIn, setFrame, setProc, same]
  · simpa [sleepIn, setFrame, setProc, same] using sleepers.frames other
  · simp [sleepIn, setFrame, setProc, same]
  · simpa [sleepIn, setFrame, setProc, same] using sleepers.stack other (stack other same inList)

theorem Sleepers.leave (sleepers : Sleepers k) (pid : Nat) (gone : ¬ listed k (.stack pid)) :
    Sleepers (setFrame k pid none) := by
  refine ⟨sleepers.procs, fun other => ?_, fun other inList => ?_⟩ <;> by_cases same : other = pid
  · simp [setFrame, same]
  · simpa [setFrame, same] using sleepers.frames other
  · exact absurd (same ▸ inList) gone
  · simpa [setFrame, same] using sleepers.stack other inList

theorem added_other (fresh : ¬ listed k addr) (inList : listed k other) :
    added ⟨k, now, due⟩ addr expires other = due other := by
  have apart : other ≠ addr := by
    rintro rfl
    exact fresh inList
  simp [added, apart]

/-- What an event that is no tick has to show. -/
theorem Timely.settle (timely : Timely after) (moved : event ≠ .tick)
    (stays : ∀ addr, listed after.kernel addr ↔
      Adds before event addr ∨ listed before.kernel addr ∧ ¬ Ends before event addr)
    (kept : ∀ addr, listed before.kernel addr → after.due addr = before.due addr) :
    OnTime before event after where
  first := timely.first
  remaining _ _ _ := timely.remaining
  stays := stays
  kept := kept
  wakes tick := absurd tick moved

theorem Timely.idle (timely : Timely before) (moved : event ≠ .tick)
    (none_added : ∀ addr, ¬ Adds before event addr)
    (none_ended : ∀ addr, listed before.kernel addr → ¬ Ends before event addr) :
    OnTime before event before :=
  timely.settle moved (fun addr => by simpa [none_added addr] using none_ended addr) fun _ _ => rfl

/-- The invariant of a system of timers and sleepers. -/
structure Punctual (timed : Timed) : Prop where
  timely : Timely timed
  sleepers : Sleepers timed.kernel

theorem sleep_punctual (punctual : Punctual ⟨k, now, due⟩) (small : time < 2 ^ 32) :
    ∃ after, step ⟨k, now, due⟩ (.sleep pid time) = some after ∧
      OnTime ⟨k, now, due⟩ (.sleep pid time) after ∧ Punctual after := by
  obtain ⟨timely, sleepers⟩ := punctual
  by_cases running : ready k pid && time ≠ 0
  · obtain ⟨running', positive⟩ : ready k pid = true ∧ time ≠ 0 := by simpa using running
    have outside : k.frames pid = none := by
      simp only [ready, Bool.and_eq_true, Option.isNone_iff_eq_none] at running'
      exact running'.2
    have fresh : ¬ listed k (.stack pid) := fun inList =>
      nomatch outside.symm.trans (sleepers.stack pid inList)
    have asleep : Timely ⟨sleepIn k pid wtTimer .sleep, now, due⟩ := timely.same rfl
    obtain ⟨after, slept, timely', listed', rfl⟩ :=
      asleep.add pid fresh (Nat.pos_of_ne_zero positive) small
    have sleepers' := sleepers.sleep pid (addLoop ⟨.stack pid, pid, time⟩ k.timerList)
      fun other apart inList => ((listed' (.stack other)).mp inList).resolve_left (by simpa using apart)
    refine ⟨_, by simp [step, Sched.step, running', doSleep, positive, slept]; rfl,
      timely'.settle nofun (fun addr => ?_) fun addr inList => added_other fresh inList,
      timely', sleepers'⟩
    rw [listed']
    simp [Adds, Ends, running', positive, listed, Sched.sleepIn, setFrame, setProc]
  · refine ⟨⟨k, now, due⟩, ?_, timely.idle nofun (fun addr => ?_) (fun _ _ => id), timely, sleepers⟩
    · by_cases running' : ready k pid
      · have zero : time = 0 := by simpa [running'] using running
        simp [step, Sched.step, doSleep, zero]
      · simp [step, Sched.step, running']
    · rintro ⟨-, running', positive⟩
      exact running (by simp [running', positive])

theorem resume_punctual (punctual : Punctual ⟨k, now, due⟩) :
    ∃ after, step ⟨k, now, due⟩ (.resume pid) = some after ∧
      OnTime ⟨k, now, due⟩ (.resume pid) after ∧ Punctual after := by
  obtain ⟨timely, sleepers⟩ := punctual
  by_cases running : awake k pid
  · rcases sleepers.frames pid with outside | inside
    · refine ⟨⟨k, now, due⟩, by simp [step, Sched.step, running, resume, show k.frames pid = none from outside],
        timely.idle nofun (fun _ => nofun) fun addr inList => ?_, timely, sleepers⟩
      rintro ⟨rfl, -⟩
      exact nomatch outside.symm.trans (sleepers.stack pid inList)
    · obtain ⟨timely', listed'⟩ := timely.delete (.stack pid)
      have gone : ¬ listed (delTimer k (.stack pid)) (.stack pid) := by simp [listed']
      have left : Timely ⟨setFrame (delTimer k (.stack pid)) pid none, now, due⟩ := timely'.same rfl
      have sleepers' : Sleepers (delTimer k (.stack pid)) :=
        sleepers.keep sleepers.procs rfl fun other inList => ((listed' _).mp inList).1
      refine ⟨_, by simp [step, Sched.step, running, resume, show k.frames pid = some .sleep from inside],
        left.settle nofun (fun addr => ?_) (fun _ _ => rfl), left, sleepers'.leave pid gone⟩
      have same : listed (setFrame (delTimer k (.stack pid)) pid none) addr ↔
        listed (delTimer k (.stack pid)) addr := .rfl
      rw [same, listed']
      simp [Adds, Ends, running]
  · refine ⟨⟨k, now, due⟩, by simp [step, Sched.step, running], ?_, timely, sleepers⟩
    exact timely.idle nofun (fun _ => nofun) fun addr _ ends => running ends.2

/-- Every lawful event keeps the timers on time. -/
theorem step_punctual (timed : Timed) (event : Event) (punctual : Punctual timed)
    (lawful : Lawful timed event) :
    ∃ after, step timed event = some after ∧ OnTime timed event after ∧ Punctual after := by
  obtain ⟨k, now, due⟩ := timed
  obtain ⟨timely, sleepers⟩ : Timely ⟨k, now, due⟩ ∧ Sleepers k := ⟨punctual.timely, punctual.sleepers⟩
  cases event with
  | up | down | tryDown => exact lawful.elim
  | sleep pid time => exact sleep_punctual punctual lawful
  | resume pid => exact resume_punctual punctual
  | kill pid =>
    obtain ⟨after, code, killed, wakes⟩ := doKill_wakes (sleepers.procs pid).1
    have same (addr : TimerAddr) : listed after addr ↔ listed k addr := by
      simp only [listed, wakes.timers]
    have timely' : Timely ⟨after, now, due⟩ := timely.same wakes.timers
    refine ⟨⟨after, now, due⟩, by simp [step, Sched.step, killed],
      timely'.settle nofun (fun addr => by simp [same, Adds, Ends]) fun _ _ => rfl, timely', ?_⟩
    exact sleepers.keep (fun pid => wakes.wakeable (sleepers.procs pid)) wakes.frames
      fun pid => (same _).mp
  | tick =>
    obtain ⟨after, ran, timely', listed', woken, wakes, -⟩ :=
      timely.tick fun timer _ => sleepers.procs timer.proc
    refine ⟨⟨after, now + 1, due⟩, by simp [step, Sched.step, ran],
      ⟨timely'.first, fun _ _ _ => timely'.remaining, fun addr => ?_, fun _ _ => rfl, fun _ => woken⟩,
      timely', ?_⟩
    · simp [listed', Adds, Ends]
    · exact sleepers.keep (fun pid => wakes.wakeable (sleepers.procs pid)) wakes.frames
        fun pid inList => ((listed' _).mp inList).1
  | addTimer n pid expires =>
    obtain ⟨positive, small, fresh⟩ := lawful
    obtain ⟨after, ran, timely', listed', rfl⟩ := timely.add pid fresh positive small
    refine ⟨_, by simp [step, Sched.step, ran],
      timely'.settle nofun (fun addr => ?_) fun addr inList => added_other fresh inList, timely', ?_⟩
    · simp [listed', Adds, Ends]
    · exact sleepers.keep sleepers.procs rfl fun other inList => by simpa using (listed' _).mp inList
  | delTimer n =>
    obtain ⟨timely', listed'⟩ := timely.delete (.other n)
    refine ⟨_, rfl, timely'.settle nofun (fun addr => ?_) (fun _ _ => rfl), timely', ?_⟩
    · simp [listed', Adds, Ends]
    · exact sleepers.keep sleepers.procs rfl fun other inList => ((listed' _).mp inList).1

theorem boot_punctual (initial : Nat → Int) : Punctual (boot initial) where
  timely := ⟨.nil, nofun, nofun⟩
  sleepers := ⟨fun _ => ⟨nofun, .inl rfl⟩, fun _ => .inl rfl, nofun⟩

theorem step_now (ran : step timed event = some after) : after.now = timed.now + ticks [event] := by
  obtain ⟨k, -, rfl⟩ := Option.map_eq_some_iff.mp ran
  cases event <;> rfl

/-- Before its tick a timer that is not deleted is listed, for the tick it was added for. -/
theorem stays_listed (safe : Safe step OnTime timed events) (inList : listed timed.kernel addr)
    (spared : Along step (Spares addr) timed events) (ran : run step timed events = some last)
    (early : timed.now + ticks events < timed.due addr) :
    listed last.kernel addr ∧ last.due addr = timed.due addr ∧ last.now = timed.now + ticks events := by
  induction events generalizing timed with
  | nil =>
    cases ran
    exact ⟨inList, rfl, rfl⟩
  | cons event events ih =>
    obtain ⟨after, stepped, good, safe⟩ := safe
    rw [run, stepped, Option.bind_some] at ran
    have count : ticks (event :: events) = ticks [event] + ticks events := by
      simp only [ticks, List.countP_cons, List.countP_nil]
      omega
    have now := step_now stepped
    have due := good.kept addr inList
    have inList' : listed after.kernel addr := by
      refine (good.stays addr).mpr (.inr ⟨inList, fun ends => ?_⟩)
      obtain rfl := spared.1 ends
      have one : ticks [Event.tick] = 1 := rfl
      have : timed.due addr = timed.now + 1 := ends
      omega
    obtain ⟨stays, due', now'⟩ := ih safe inList' (spared.2 after stepped) ran (by omega)
    exact ⟨stays, due'.trans due, by omega⟩

/-- The tick it was added for takes a listed timer off the list. -/
theorem fires_last (safe : Safe step OnTime timed events) (inList : listed timed.kernel addr)
    (spared : Along step (Spares addr) timed events) (ran : run step timed events = some last)
    (due : timed.now + ticks events = timed.due addr) (ticked : events.getLast? = some .tick) :
    ¬ listed last.kernel addr := by
  induction events generalizing timed with
  | nil => cases ticked
  | cons event events ih =>
    obtain ⟨after, stepped, good, safe⟩ := safe
    rw [run, stepped, Option.bind_some] at ran
    have one : ticks [Event.tick] = 1 := rfl
    cases events with
    | nil =>
      cases ran
      obtain rfl : event = .tick := by simpa using ticked
      rw [good.stays addr]
      rintro (⟨⟨⟩⟩ | ⟨-, spared⟩)
      exact spared (by simp only [Ends]; omega)
    | cons next events =>
      rw [List.getLast?_cons_cons] at ticked
      have count : ticks (event :: next :: events) = ticks [event] + ticks (next :: events) := by
        simp only [ticks, List.countP_cons, List.countP_nil]
        omega
      have some_left : 0 < ticks (next :: events) :=
        List.countP_pos_iff.mpr ⟨.tick, List.mem_of_getLast? ticked, rfl⟩
      have now := step_now stepped
      have due' := good.kept addr inList
      have inList' : listed after.kernel addr := by
        refine (good.stays addr).mpr (.inr ⟨inList, fun ends => ?_⟩)
        obtain rfl := spared.1 ends
        have : timed.due addr = timed.now + 1 := ends
        omega
      exact ih safe inList' (spared.2 after stepped) ran (by omega) ticked

/-- From boot no event fails, and every timer fires on the tick it was added for. -/
theorem timers_on_time (initial : Nat → Int) (events : List Event)
    (lawful : Along step Lawful (boot initial) events) :
    Safe step OnTime (boot initial) events ∧
      ∀ first between rest, events = first ++ rest → run step (boot initial) first = some between →
        Fires between rest := by
  have safe := safe_of_invariant step_punctual (boot_punctual initial) lawful
  refine ⟨safe, ?_⟩
  rintro first between rest rfl ran addr last inList spared ran'
  have safe' := safe.append ran
  exact ⟨fun early => (stays_listed safe' inList spared ran' early).1,
    fun due ticked => fires_last safe' inList spared ran' due ticked⟩

/-- A sleeper is killed before its timer, beside a timer of one tick. -/
def sleepers : List Event := [.sleep 1 3, .addTimer 0 2 1, .kill 1, .tick, .resume 1]

theorem timers_on_time_sleepers :
    Along step Lawful (boot fun _ => 0) sleepers ∧ Safe step OnTime (boot fun _ => 0) sleepers ∧
      Fires (boot fun _ => 0) sleepers := by
  have lawful : Along step Lawful (boot fun _ => 0) sleepers := by
    refine ⟨by simp [Lawful], ?_⟩
    rintro _ ⟨⟩
    refine ⟨⟨by decide, by decide, Bool.false_ne_true⟩, ?_⟩
    rintro _ ⟨⟩
    refine ⟨trivial, ?_⟩
    rintro _ ⟨⟩
    refine ⟨trivial, ?_⟩
    rintro _ ⟨⟩
    exact ⟨trivial, fun _ _ => trivial⟩
  obtain ⟨safe, fires⟩ := timers_on_time (fun _ => 0) sleepers lawful
  exact ⟨lawful, safe, fires [] _ sleepers rfl rfl⟩

end Ucore.TimerProofs
