import Ucore.Monitor

/-! The dining philosophers of `kern/sync/check_sync.c`, with semaphores and with
a monitor. Philosopher `i` is thread `i`. A step is one statement: a test of the
neighbours and the write that follows it are different steps, so nothing but the
locks keeps another philosopher from coming between them. A philosopher takes and
puts its forks in turn, as often as it likes. -/
namespace Ucore.CheckSync
open Sched Monitors

def n : Nat := 5

def times : Nat := 4

def left (i : Nat) : Nat := (i + n - 1) % n

def right (i : Nat) : Nat := (i + 1) % n

inductive Meal where
  | thinking
  | hungry
  | eating
  deriving DecidableEq

/-- A statement of a philosopher's procedures. `eat` and what follows it stand
behind the test in `phi_test_sema` and `phi_test_condvar`. -/
inductive Op where
  | set (i : Nat) (meal : Meal)
  | test (i : Nat)
  | eat (i : Nat)
  /-- `up(&s[i])`, or `cond_signal` of `i`. -/
  | signal (i : Nat)
  /-- `down(&s[i])`, or `cond_wait` of `i` if it is still hungry. -/
  | await (i : Nat)
  | leave
  deriving DecidableEq

def test (meals : Nat → Meal) (i : Nat) : Bool :=
  meals i = .hungry && meals (left i) ≠ .eating && meals (right i) ≠ .eating

def tested (meals : Nat → Meal) (i : Nat) (rest : List Op) : List Op :=
  if test meals i then .eat i :: .signal i :: rest else rest

inductive Event where
  | phil (i : Nat)
  | kernel (event : Sched.Event)

/-! ## With a monitor -/

/-- `phi_take_forks_condvar` and `phi_put_forks_condvar` inside the monitor. -/
def takeForksCondvar (i : Nat) : List Op := [.set i .hungry, .test i, .await i, .leave]

def putForksCondvar (i : Nat) : List Op := [.set i .thinking, .test (left i), .test (right i), .leave]

/-- `turn` counts the procedures a philosopher has started: it takes its forks on
even turns and puts them back on odd ones. -/
structure Condvar where
  monitor : State (Nat → Meal)
  plan : Nat → List Op
  turn : Nat → Nat

def onMonitor (m : Monitor) (s : Condvar) (event : Monitors.Event (Nat → Meal)) (plan : Nat → List Op) :
    Option Condvar :=
  (Monitors.step m s.monitor event).map fun monitor => { s with monitor := monitor, plan := plan }

def actCondvar (m : Monitor) (s : Condvar) (i : Nat) : List Op → Option Condvar
  | [] => some s
  | op :: rest =>
    let plan := Function.update s.plan i rest
    match op with
    | .set j meal => onMonitor m s (.work i fun meals => Function.update meals j meal) plan
    | .test j => some { s with plan := Function.update s.plan i (tested s.monitor.data j rest) }
    | .eat j => onMonitor m s (.work i fun meals => Function.update meals j .eating) plan
    | .signal j => onMonitor m s (.signal i j) plan
    | .await j =>
      if s.monitor.data j = .hungry then onMonitor m s (.wait i j) plan else some { s with plan := plan }
    | .leave => onMonitor m s (.leave i) plan

def stepCondvar (m : Monitor) (s : Condvar) : Event → Option Condvar
  | .phil i =>
    if i < n then
      match s.monitor.pc i with
      | .outside =>
        if ready s.monitor.kernel i && s.turn i < 2 * times then
          (onMonitor m s (.enter i) (Function.update s.plan i
            (if s.turn i % 2 = 0 then takeForksCondvar i else putForksCondvar i))).map fun s =>
              { s with turn := Function.update s.turn i (s.turn i + 1) }
        else some s
      | .entering | .suspended | .waiting _ => onMonitor m s (.resume i) s.plan
      | .signalling | .yielding _ => onMonitor m s (.down i) s.plan
      | .active => if ready s.monitor.kernel i then actCondvar m s i (s.plan i) else some s
    else some s
  | .kernel event => onMonitor m s (.kernel event) s.plan

/-- The second half of `check_sync`, with a monitor of `n` conditions. -/
def checkCondvar (m : Monitor) (k : Kernel) (mem : Bool) : Option Condvar :=
  (monitorInit m k mem fun _ => .thinking).map fun monitor => ⟨monitor, fun _ => [], fun _ => 0⟩

/-! ## With semaphores -/

/-- The semaphores of the table, all of them different. -/
structure Table where
  mutex : Nat
  s : Nat → Nat
  apart : ∀ i < n, s i ≠ mutex
  distinct : ∀ i < n, ∀ j < n, s i = s j → i = j

def Table.owns (table : Table) (sem : Nat) : Bool :=
  sem = table.mutex || (List.range n).any fun i => table.s i = sem

/-- `inside` stands between `down(&mutex)` and `up(&mutex)`. -/
inductive Phase where
  | outside
  | entering
  | inside
  | awaiting
  deriving DecidableEq

/-- `phi_take_forks_sema` and `phi_put_forks_sema` after `down(&mutex)`. -/
def takeForksSema (i : Nat) : List Op := [.set i .hungry, .test i, .leave, .await i]

def putForksSema (i : Nat) : List Op := [.set i .thinking, .test (left i), .test (right i), .leave]

structure Sema where
  kernel : Kernel
  meals : Nat → Meal
  phase : Nat → Phase
  plan : Nat → List Op
  turn : Nat → Nat

/-- The first half of `check_sync`. -/
def checkSema (table : Table) (k : Kernel) : Sema :=
  ⟨(List.range n).foldl (fun k i => semInit k (table.s i) 0) (semInit k table.mutex 1),
    fun _ => .thinking, fun _ => .outside, fun _ => [], fun _ => 0⟩

def Sema.go (s : Sema) (k : Kernel) (i : Nat) (phase : Phase) (plan : List Op) : Sema :=
  { s with
    kernel := k
    phase := Function.update s.phase i phase
    plan := Function.update s.plan i plan }

/-- A `down` that returns at once to one phase, or blocks in another. -/
def downSema (s : Sema) (i sem : Nat) (returned blocked : Phase) (plan : List Op) : Sema :=
  s.go (down s.kernel i sem) i (if 0 < (s.kernel.sems sem).value then returned else blocked) plan

def startSema (table : Table) (s : Sema) (i : Nat) : Sema :=
  { downSema s i table.mutex .inside .entering
      (if s.turn i % 2 = 0 then takeForksSema i else putForksSema i) with
    turn := Function.update s.turn i (s.turn i + 1) }

def actSema (table : Table) (s : Sema) (i : Nat) : List Op → Option Sema
  | .set j meal :: rest => some { s.go s.kernel i .inside rest with meals := Function.update s.meals j meal }
  | .test j :: rest => some (s.go s.kernel i .inside (tested s.meals j rest))
  | .eat j :: rest => some { s.go s.kernel i .inside rest with meals := Function.update s.meals j .eating }
  | .signal j :: rest => (up s.kernel (table.s j)).map fun k => s.go k i .inside rest
  | .leave :: rest => (up s.kernel table.mutex).map fun k => s.go k i .outside rest
  | _ => some s

def stepSema (table : Table) (s : Sema) : Event → Option Sema
  | .phil i =>
    if i < n then
      match s.phase i with
      | .outside =>
        if ready s.kernel i then
          match s.plan i with
          | [] => if s.turn i < 2 * times then some (startSema table s i) else some s
          | .await j :: rest => some (downSema s i (table.s j) .outside .awaiting rest)
          | _ => some s
        else some s
      | .entering =>
        if awake s.kernel i then (resume s.kernel i).map fun k => s.go k i .inside (s.plan i) else some s
      | .awaiting =>
        if awake s.kernel i then (resume s.kernel i).map fun k => s.go k i .outside (s.plan i) else some s
      | .inside => if ready s.kernel i then actSema table s i (s.plan i) else some s
    else some s
  | .kernel event =>
    if foreign table.owns s.kernel event then
      (Sched.step s.kernel event).map fun k => { s with kernel := k }
    else some s

end Ucore.CheckSync
