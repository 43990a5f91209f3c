import Ucore.SemProofs

/-! Hoare monitors, `kern/sync/monitor.c`: threads that enter, leave, wait and
signal, on the semaphores of the kernel. A step is one `up` or `down` with the
statements next to it, so threads interleave at every semaphore operation, more
often than in a kernel that switches only where it sleeps. -/
namespace Ucore.Monitors
open Sched

/-- A `monitor_t` at the semaphores it owns, all of them different. -/
structure Monitor where
  mutex : Nat
  next : Nat
  numCv : Nat
  cvSem : Nat → Nat
  mutex_next : mutex ≠ next
  cv_mutex : ∀ cv < numCv, cvSem cv ≠ mutex
  cv_next : ∀ cv < numCv, cvSem cv ≠ next
  cv_cv : ∀ a < numCv, ∀ b < numCv, cvSem a = cvSem b → a = b

def Monitor.owns (m : Monitor) (sem : Nat) : Bool :=
  sem = m.mutex || sem = m.next || (List.range m.numCv).any fun cv => m.cvSem cv = sem

/-- Where a thread is in the monitor's procedures. `signalling` and `yielding`
stand between the `up` and the `down` of `cond_signal` and `cond_wait`. -/
inductive Pc where
  | outside
  | entering
  | active
  | signalling
  | suspended
  | yielding (cv : Nat)
  | waiting (cv : Nat)
  deriving DecidableEq

/-- `data` is what the monitor protects. -/
structure State (D : Type) where
  kernel : Kernel
  nextCount : Int
  count : Nat → Int
  pc : Nat → Pc
  data : D

variable {D : Type} (m : Monitor)

def goto (s : State D) (t : Nat) (pc : Pc) : State D := { s with pc := Function.update s.pc t pc }

/-- `sem_init`. -/
def semInit (k : Kernel) (sem : Nat) (value : Int) : Kernel := setSem k sem ⟨value, []⟩

/-- `monitor_init` asserts that there is a condition variable and memory for it. -/
def monitorInit (k : Kernel) (mem : Bool) (data : D) : Option (State D) :=
  if 0 < m.numCv && mem then
    let k := semInit (semInit k m.mutex 1) m.next 0
    some ⟨(List.range m.numCv).foldl (fun k cv => semInit k (m.cvSem cv) 0) k, 0, fun _ => 0,
      fun _ => .outside, data⟩
  else none

/-- What a thread does when its `down` returns. -/
def finish (s : State D) (t : Nat) : Pc → State D
  | .suspended => goto { s with nextCount := s.nextCount - 1 } t .active
  | .waiting cv => goto { s with count := Function.update s.count cv (s.count cv - 1) } t .active
  | _ => goto s t .active

/-- A `down` that returns at once, or leaves the thread blocked at `pc`. -/
def downAt (s : State D) (t sem : Nat) (pc : Pc) : State D :=
  let after := { s with kernel := down s.kernel t sem }
  if 0 < (s.kernel.sems sem).value then finish after t pc else goto after t pc

/-- The way out of the monitor: to a suspended signaller first. -/
def release (s : State D) : Option (State D) :=
  (up s.kernel (if 0 < s.nextCount then m.next else m.mutex)).map fun k => { s with kernel := k }

/-- `cond_signal` up to its `down`. -/
def condSignal (s : State D) (t cv : Nat) : Option (State D) :=
  if 0 < s.count cv then
    (up s.kernel (m.cvSem cv)).map fun k =>
      goto { s with kernel := k, nextCount := s.nextCount + 1 } t .signalling
  else some s

/-- `cond_wait` up to its `down`. -/
def condWait (s : State D) (t cv : Nat) : Option (State D) :=
  (release m { s with count := Function.update s.count cv (s.count cv + 1) }).map fun s =>
    goto s t (.yielding cv)

def leave (s : State D) (t : Nat) : Option (State D) := (release m s).map fun s => goto s t .outside

inductive Event (D : Type) where
  | enter (t : Nat)
  | leave (t : Nat)
  | wait (t cv : Nat)
  | signal (t cv : Nat)
  | work (t : Nat) (f : D → D)
  /-- The `down` of `cond_signal` or `cond_wait`. -/
  | down (t : Nat)
  | resume (t : Nat)
  /-- Anything else in the kernel: sleeps, kills, ticks, other semaphores. -/
  | kernel (event : Sched.Event)

def blocked : Pc → Bool
  | .entering | .suspended | .waiting _ => true
  | _ => false

/-- The event is about none of the semaphores that somebody owns. -/
def foreign (owns : Nat → Bool) (k : Kernel) : Sched.Event → Bool
  | .up _ sem | .down _ sem | .tryDown _ sem => !owns sem
  | .resume pid =>
    match k.frames pid with
    | some (.down sem _) => !owns sem
    | _ => true
  | _ => true

def step (s : State D) : Event D → Option (State D)
  | .enter t =>
    if ready s.kernel t && s.pc t = .outside then some (downAt s t m.mutex .entering) else some s
  | .leave t => if ready s.kernel t && s.pc t = .active then leave m s t else some s
  | .wait t cv =>
    if ready s.kernel t && s.pc t = .active && cv < m.numCv then condWait m s t cv else some s
  | .signal t cv =>
    if ready s.kernel t && s.pc t = .active && cv < m.numCv then condSignal m s t cv else some s
  | .work t f => if ready s.kernel t && s.pc t = .active then some { s with data := f s.data } else some s
  | .down t =>
    if ready s.kernel t then
      match s.pc t with
      | .signalling => some (downAt s t m.next .suspended)
      | .yielding cv => some (downAt s t (m.cvSem cv) (.waiting cv))
      | _ => some s
    else some s
  | .resume t =>
    if awake s.kernel t && blocked (s.pc t) then
      (resume s.kernel t).map fun k => finish { s with kernel := k } t (s.pc t)
    else some s
  | .kernel event =>
    if foreign m.owns s.kernel event then (Sched.step s.kernel event).map fun k => { s with kernel := k }
    else some s

end Ucore.Monitors
