import Ucore.ProcTable
import Ucore.Runs

/-! `get_pid` always ends and its pid is new, whatever the order of `proc_list`.
The counters bound an interval that holds no pid in use; a search keeps this for
the processes it has passed, and every restart of it brings `last_pid` nearer to
a pid that nobody has. -/
namespace Ucore.PidProofs
open Ucore.Ring ListHeader ProcTable

variable {k : Table} {nodes before after : List Nat} {lastPid nextSafe free : Int}

/-- The walk from `proc_list` comes to the process. -/
def Listed (k : Table) (proc : Nat) : Prop := ∃ turns, k.listLink.next^[turns] none = some proc

/-- No pid of these processes lies from `lastPid` on below `nextSafe`. -/
def Clear (k : Table) (nodes : List Nat) (lastPid nextSafe : Int) : Prop :=
  ∀ proc ∈ nodes, (k.procs proc).pid < lastPid ∨ nextSafe ≤ (k.procs proc).pid

/-! ## The search -/

theorem next_getLast (ring : IsRing k.listLink none ((before ++ after).map some)) :
    listNext k.listLink before.getLast? = after.head? := by
  rw [List.map_append] at ring
  have next := ring.next_between
  have lastOf : (none :: before.map some).getLast (by simp) = before.getLast? := by
    rcases List.eq_nil_or_concat before with rfl | ⟨earlier, last, rfl⟩ <;> simp
  have firstOf : (after.map some ++ [none]).head (by simp) = after.head? := by
    cases after <;> simp
  rwa [lastOf, firstOf] at next

/-- How often `last_pid` may still grow before it is `free`. -/
def budget (free lastPid : Int) : Nat :=
  (if lastPid ≤ free then free - lastPid else maxPid - lastPid + free - 1).toNat

theorem budget_restart (inRange : 1 ≤ free ∧ free < maxPid) (used : lastPid ≠ free)
    (low : 1 ≤ lastPid ∧ lastPid < maxPid) :
    budget free (if maxPid ≤ lastPid + 1 then 1 else lastPid + 1) + 1 = budget free lastPid := by
  unfold budget maxPid at *
  split_ifs <;> omega

theorem budget_le (inRange : 1 ≤ free ∧ free < maxPid) (low : 1 ≤ lastPid ∧ lastPid < maxPid) :
    budget free lastPid ≤ 2 * 8192 := by
  unfold budget maxPid at *
  split_ifs <;> omega

theorem Clear.passed {proc : Nat} (clear : Clear k before lastPid nextSafe)
    (own : (k.procs proc).pid < lastPid ∨ nextSafe ≤ (k.procs proc).pid) :
    Clear k (before ++ [proc]) lastPid nextSafe := by
  intro other member
  rcases List.mem_append.mp member with earlier | same
  · exact clear other earlier
  · cases List.mem_singleton.mp same
    exact own

theorem Clear.narrow {last next : Int} (clear : Clear k nodes lastPid nextSafe)
    (lower : lastPid ≤ last) (upper : next ≤ nextSafe) : Clear k nodes last next := by
  intro proc member
  have apart := clear proc member
  omega

/-- With a pid that nobody has, the search ends between two pids in use. Each turn
passes a process or restarts, and a restart uses up some of the budget. -/
theorem scan_returns (ring : IsRing k.listLink none (nodes.map some))
    (inRange : 1 ≤ free ∧ free < maxPid) (unused : ∀ proc ∈ nodes, (k.procs proc).pid ≠ free)
    (turns : Nat) (split : nodes = before ++ after)
    (range : 1 ≤ lastPid ∧ lastPid < nextSafe ∧ nextSafe ≤ maxPid)
    (clear : Clear k before lastPid nextSafe)
    (enough : budget free lastPid * (nodes.length + 1) + after.length < turns) :
    ∃ last next, scan k turns lastPid nextSafe before.getLast? = some (last, next) ∧
      1 ≤ last ∧ last < next ∧ next ≤ maxPid ∧ Clear k nodes last next := by
  induction turns generalizing before after lastPid nextSafe with
  | zero => omega
  | succ turns ih =>
    have next : listNext k.listLink before.getLast? = after.head? := next_getLast (split ▸ ring)
    cases after with
    | nil =>
      refine ⟨lastPid, nextSafe, by simp [scan, next], range.1, range.2.1, range.2.2, ?_⟩
      rwa [split, List.append_nil]
    | cons proc after =>
      have passed : (before ++ [proc]).getLast? = some proc := by simp
      have onward : nodes = (before ++ [proc]) ++ after := by simp [split]
      have unusedHere : (k.procs proc).pid ≠ free := unused proc (by simp [split])
      simp only [scan, next, List.head?_cons]
      rw [List.length_cons] at enough
      by_cases here : (k.procs proc).pid = lastPid
      · rw [if_pos here]
        have spent := budget_restart inRange (here ▸ unusedHere) ⟨range.1, by omega⟩
        by_cases restart : nextSafe ≤ lastPid + 1
        · rw [if_pos restart]
          rw [← spent, Nat.add_mul] at enough
          exact ih (List.nil_append nodes).symm
            (by unfold maxPid at *; split_ifs <;> omega) (by simp [Clear]) (by omega)
        · rw [if_neg restart, ← passed]
          rw [if_neg (by omega)] at spent
          have fewer : budget free (lastPid + 1) * (nodes.length + 1) ≤
              budget free lastPid * (nodes.length + 1) := Nat.mul_le_mul_right _ (by omega)
          exact ih onward ⟨by omega, by omega, range.2.2⟩
            ((clear.narrow (by omega) le_rfl).passed (by omega)) (by omega)
      · rw [if_neg here]
        by_cases within : lastPid < (k.procs proc).pid ∧ (k.procs proc).pid < nextSafe
        · rw [if_pos (by simpa using within), ← passed]
          exact ih onward ⟨range.1, within.1, by omega⟩
            ((clear.narrow le_rfl (by omega)).passed (by omega)) (by omega)
        · rw [if_neg (by simpa using within), ← passed]
          exact ih onward range (clear.passed (by omega)) (by omega)

/-- Fewer processes than pids leave a pid to nobody. -/
theorem exists_unused (k : Table) (few : nodes.length ≤ maxProcess) :
    ∃ free, (1 ≤ free ∧ free < maxPid) ∧ ∀ proc ∈ nodes, (k.procs proc).pid ≠ free := by
  have fewer : (nodes.map fun proc => (k.procs proc).pid).toFinset.card < (Finset.Ico 1 maxPid).card := by
    have most := List.toFinset_card_le (nodes.map fun proc => (k.procs proc).pid)
    rw [List.length_map] at most
    have pids : (Finset.Ico 1 maxPid).card = 8191 := by simp [maxPid]
    unfold maxProcess at few
    omega
  obtain ⟨free, inRange, unused⟩ := Finset.exists_mem_notMem_of_card_lt_card fewer
  refine ⟨free, Finset.mem_Ico.mp inRange, fun proc member same => unused ?_⟩
  exact List.mem_toFinset.mpr (List.mem_map.mpr ⟨proc, member, same⟩)

/-- `last_pid` is below every pid in use above it up to `next_safe`. -/
structure Counted (k : Table) (nodes : List Nat) : Prop where
  low : 0 ≤ k.lastPid
  high : k.nextSafe ≤ maxPid
  between : ∀ proc ∈ nodes, (k.procs proc).pid ≤ k.lastPid ∨ k.nextSafe ≤ (k.procs proc).pid

theorem inside_returns (ring : IsRing k.listLink none (nodes.map some))
    (few : nodes.length ≤ maxProcess) (range : 1 ≤ lastPid ∧ lastPid < maxPid) :
    ∃ last next, inside k lastPid = some ({ k with lastPid := last, nextSafe := next }, last) ∧
      1 ≤ last ∧ last < next ∧ next ≤ maxPid ∧ Clear k nodes last next := by
  obtain ⟨free, inRange, unused⟩ := exists_unused k few
  have spend := Nat.mul_le_mul (budget_le inRange range) (Nat.add_le_add_right few 1)
  obtain ⟨last, next, found, result⟩ := scan_returns ring inRange unused scanTurns
    (List.nil_append nodes).symm ⟨range.1, range.2, le_rfl⟩ (by simp [Clear])
    (by unfold scanTurns maxProcess at *; omega)
  refine ⟨last, next, ?_, result⟩
  rw [inside, show (none : Option Nat) = [].getLast? from rfl, found]
  rfl

/-- The fast path trusts the interval of an earlier search; the others search again. -/
theorem getPid_returns (ring : IsRing k.listLink none (nodes.map some))
    (few : nodes.length ≤ maxProcess) (counted : Counted k nodes) :
    ∃ last next, getPid k = some ({ k with lastPid := last, nextSafe := next }, last) ∧
      1 ≤ last ∧ last < next ∧ next ≤ maxPid ∧ Clear k nodes last next := by
  have low := counted.low
  unfold getPid
  by_cases wraps : maxPid ≤ k.lastPid + 1
  · simp only [if_pos wraps]
    exact inside_returns ring few (by simp [maxPid])
  · simp only [if_neg wraps]
    by_cases past : k.nextSafe ≤ k.lastPid + 1
    · rw [if_pos past]
      exact inside_returns ring few (by omega)
    · rw [if_neg past]
      refine ⟨k.lastPid + 1, k.nextSafe, rfl, by omega, by omega, counted.high, fun proc member => ?_⟩
      have apart := counted.between proc member
      omega

/-! ## Links -/

/-- What the family pointers do not touch. -/
structure Kept (k other : Table) : Prop where
  pids : ∀ proc, (other.procs proc).pid = (k.procs proc).pid
  parents : ∀ proc, (other.procs proc).parent = (k.procs proc).parent
  listLink : other.listLink = k.listLink
  nrProcess : other.nrProcess = k.nrProcess
  lastPid : other.lastPid = k.lastPid
  nextSafe : other.nextSafe = k.nextSafe

theorem Kept.trans {other third : Table} (first : Kept k other) (second : Kept other third) :
    Kept k third where
  pids proc := (second.pids proc).trans (first.pids proc)
  parents proc := (second.parents proc).trans (first.parents proc)
  listLink := second.listLink.trans first.listLink
  nrProcess := second.nrProcess.trans first.nrProcess
  lastPid := second.lastPid.trans first.lastPid
  nextSafe := second.nextSafe.trans first.nextSafe

theorem Kept.count {other : Table} (kept : Kept k other) (change : Nat → Nat) :
    Kept { k with nrProcess := change k.nrProcess }
      { other with nrProcess := change other.nrProcess } :=
  ⟨kept.pids, kept.parents, kept.listLink, congrArg change kept.nrProcess, kept.lastPid, kept.nextSafe⟩

theorem setProc_kept {addr : Nat} {proc : ProcStruct} (pid : proc.pid = (k.procs addr).pid)
    (parent : proc.parent = (k.procs addr).parent) : Kept k (setProc k addr proc) := by
  refine ⟨fun other => ?_, fun other => ?_, rfl, rfl, rfl, rfl⟩
  all_goals
    by_cases same : other = addr
    · subst same
      simpa [setProc]
    · simp [setProc, same]

theorem setYptr_kept (k : Table) (proc yptr : Option Nat) : Kept k (setYptr k proc yptr) := by
  cases proc with
  | none => exact ⟨fun _ => rfl, fun _ => rfl, rfl, rfl, rfl, rfl⟩
  | some addr => exact setProc_kept rfl rfl

theorem setOptr_kept (k : Table) (proc : Nat) (optr : Option Nat) : Kept k (setOptr k proc optr) :=
  setProc_kept rfl rfl

theorem setCptr_kept (k : Table) (proc : Nat) (cptr : Option Nat) : Kept k (setCptr k proc cptr) :=
  setProc_kept rfl rfl

theorem setLinks_returns {proc parent : Nat} (child : (k.procs proc).parent = some parent) :
    ∃ linked, setLinks k proc = some linked ∧
      Kept { k with listLink := listAdd k.listLink none (some proc), nrProcess := k.nrProcess + 1 }
        linked := by
  have unlinked := setYptr_kept { k with listLink := listAdd k.listLink none (some proc) } (some proc) none
  have read := (unlinked.parents proc).trans child
  unfold setLinks
  simp only [read, Option.bind_eq_bind, Option.bind_some, Option.pure_def]
  exact ⟨_, rfl, (((unlinked.trans (setOptr_kept _ proc _)).trans (setYptr_kept _ _ _)).trans
    (setCptr_kept _ parent _)).count (· + 1)⟩

theorem removeLinks_returns {proc parent : Nat} (child : (k.procs proc).parent = some parent) :
    ∃ unlinked, removeLinks k proc = some unlinked ∧
      Kept { k with listLink := listDel k.listLink (some proc), nrProcess := k.nrProcess - 1 }
        unlinked := by
  have first := setYptr_kept { k with listLink := listDel k.listLink (some proc) }
    (k.procs proc).optr (k.procs proc).yptr
  have read := (first.parents proc).trans child
  unfold removeLinks
  simp only [read, Option.map_some, Option.bind_eq_bind, Option.pure_def]
  split
  · exact ⟨_, rfl, (first.trans (setOptr_kept _ _ _)).count (· - 1)⟩
  · exact ⟨_, rfl, (first.trans (setCptr_kept _ parent _)).count (· - 1)⟩

/-! ## Histories -/

/-- `proc_list` holds these processes, in this order. -/
structure Numbered (k : Table) (nodes : List Nat) : Prop where
  ring : IsRing k.listLink none (nodes.map some)
  counted : Counted k nodes
  count : k.nrProcess = nodes.length + 1
  most : k.nrProcess ≤ maxProcess
  parents : ∀ proc ∈ nodes, ∃ parent, (k.procs proc).parent = some parent

theorem walk_reaches (ring : IsRing k.listLink none (nodes.map some)) (split : nodes = before ++ after) :
    k.listLink.next^[before.length] none = before.getLast? := by
  induction before using List.reverseRecOn generalizing after with
  | nil => rfl
  | append_singleton before proc ih =>
    have here : nodes = before ++ proc :: after := by simpa using split
    have next : k.listLink.next before.getLast? = (proc :: after).head? := next_getLast (here ▸ ring)
    rw [List.length_append, List.length_singleton, Function.iterate_succ_apply', ih here, next]
    simp

theorem walk_stays (ring : IsRing k.listLink none (nodes.map some)) (turns : Nat) :
    ∃ before after, nodes = before ++ after ∧ k.listLink.next^[turns] none = before.getLast? := by
  induction turns with
  | zero => exact ⟨[], nodes, rfl, rfl⟩
  | succ turns ih =>
    obtain ⟨before, after, split, here⟩ := ih
    have next : k.listLink.next before.getLast? = after.head? := next_getLast (split ▸ ring)
    rw [Function.iterate_succ_apply', here, next]
    cases after with
    | nil => exact ⟨[], nodes, rfl, rfl⟩
    | cons proc after => exact ⟨before ++ [proc], after, by simpa using split, by simp⟩

theorem listed_iff (ring : IsRing k.listLink none (nodes.map some)) {proc : Nat} :
    Listed k proc ↔ proc ∈ nodes := by
  constructor
  · rintro ⟨turns, reached⟩
    obtain ⟨before, after, rfl, here⟩ := walk_stays ring turns
    rw [reached] at here
    exact List.mem_append_left _ (List.mem_of_getLast? here.symm)
  · intro member
    obtain ⟨before, after, rfl⟩ := List.append_of_mem member
    have split : before ++ proc :: after = (before ++ [proc]) ++ after := by simp
    refine ⟨(before ++ [proc]).length, ?_⟩
    rw [walk_reaches ring split]
    simp

/-- No process has a pid strictly between the counters. -/
def NoneBetween (k : Table) : Prop :=
  ∀ proc, Listed k proc → ¬(k.lastPid < (k.procs proc).pid ∧ (k.procs proc).pid < k.nextSafe)

/-- The pid a fork returns is new, and no pid in use is between the counters,
neither when it is chosen nor once its process has it. -/
def Fresh (k : Table) (proc : Nat) (after : Table) : Prop :=
  ∃ counted pid, getPid k = some (counted, pid) ∧ 1 ≤ pid ∧ pid < maxPid ∧
    (∀ other, Listed counted other → (counted.procs other).pid ≠ pid) ∧ NoneBetween counted ∧
    Listed after proc ∧ (after.procs proc).pid = pid ∧ NoneBetween after

def Good (k : Table) (event : Event) (after : Table) : Prop :=
  match event with
  | .fork parent proc =>
    if maxProcess ≤ k.nrProcess then after = k else Fresh (allocProc k proc parent) proc after
  | .reap proc => ¬Listed after proc ∧ NoneBetween after

/-- `kmalloc` gives memory that no process has, and only a process on the list is reaped. -/
def Meets (k : Table) : Event → Prop
  | .fork _ proc => ¬Listed k proc
  | .reap proc => Listed k proc

theorem Numbered.noneBetween (numbered : Numbered k nodes) : NoneBetween k := by
  intro proc listed between
  have apart := numbered.counted.between proc ((listed_iff numbered.ring).mp listed)
  omega

theorem fork_numbered {parent proc : Nat} (numbered : Numbered k nodes) (fresh : proc ∉ nodes)
    (room : k.nrProcess < maxProcess) :
    ∃ after, doFork k parent proc = some after ∧ Fresh (allocProc k proc parent) proc after ∧
      Numbered after (proc :: nodes) := by
  have ring : IsRing (allocProc k proc parent).listLink none (nodes.map some) := numbered.ring
  have others : ∀ other ∈ nodes, (allocProc k proc parent).procs other = k.procs other := by
    intro other member
    have apart : other ≠ proc := fun same => fresh (same ▸ member)
    simp [allocProc, setProc, apart]
  have counted : Counted (allocProc k proc parent) nodes :=
    ⟨numbered.counted.low, numbered.counted.high, fun other member => by
      rw [others other member]
      exact numbered.counted.between other member⟩
  have count := numbered.count
  obtain ⟨last, next, got, low, order, high, clear⟩ := getPid_returns ring (by omega) counted
  have child : ((hashProc (setProc { allocProc k proc parent with lastPid := last, nextSafe := next }
      proc { (allocProc k proc parent).procs proc with pid := last }) proc).procs proc).parent =
      some parent := by
    simp [hashProc, setProc, allocProc]
  obtain ⟨linked, ran, kept⟩ := setLinks_returns child
  have own : (linked.procs proc).pid = last := (kept.pids proc).trans (by simp [hashProc, setProc])
  have other : ∀ other ∈ nodes, (linked.procs other).pid = (k.procs other).pid ∧
      (linked.procs other).parent = (k.procs other).parent := by
    intro other member
    have apart : other ≠ proc := fun same => fresh (same ▸ member)
    rw [kept.pids, kept.parents]
    simp [hashProc, setProc, allocProc, apart]
  have unlinked : some proc ∉ none :: ([] ++ nodes.map some) := by simpa using fresh
  have linkedRing : IsRing linked.listLink none ((proc :: nodes).map some) := by
    have front : IsRing (allocProc k proc parent).listLink none ([] ++ nodes.map some) := ring
    rw [kept.listLink]
    exact listAdd_between front unlinked
  have numbers : Numbered linked (proc :: nodes) := by
    refine ⟨linkedRing, ⟨by rw [kept.lastPid]; exact (by omega : 0 ≤ last),
      by rw [kept.nextSafe]; exact high, ?_⟩, ?_, ?_, ?_⟩
    · rw [kept.lastPid, kept.nextSafe, List.forall_mem_cons, own]
      refine ⟨Or.inl le_rfl, fun node member => ?_⟩
      have apart := clear node member
      rw [others node member] at apart
      rw [(other node member).1]
      exact apart.imp le_of_lt id
    · rw [kept.nrProcess, List.length_cons]
      exact congrArg (· + 1) count
    · rw [kept.nrProcess]
      exact room
    · rw [List.forall_mem_cons]
      refine ⟨⟨parent, (kept.parents proc).trans child⟩, fun node member => ?_⟩
      rw [(other node member).2]
      exact numbered.parents node member
  refine ⟨linked, ?_, ⟨_, last, got, low, by omega, ?_, ?_, ?_, own, numbers.noneBetween⟩, numbers⟩
  · rw [doFork, if_neg (by omega)]
    simp only [got, Option.bind_some]
    exact ran
  · intro node listed same
    have apart := clear node ((listed_iff ring).mp listed)
    rw [same] at apart
    omega
  · intro node listed between
    have apart := clear node ((listed_iff ring).mp listed)
    simp only at between
    omega
  · exact (listed_iff linkedRing).mpr List.mem_cons_self

theorem reap_numbered {proc : Nat} (numbered : Numbered k nodes) (member : proc ∈ nodes) :
    ∃ after, reap k proc = some after ∧ ¬Listed after proc ∧ ∃ rest, rest ⊆ nodes ∧ Numbered after rest := by
  obtain ⟨before, rest, rfl⟩ := List.append_of_mem member
  obtain ⟨parent, child⟩ := numbered.parents proc member
  have child : ((unhashProc k proc).procs proc).parent = some parent := child
  obtain ⟨unlinked, ran, kept⟩ := removeLinks_returns child
  have ring : IsRing unlinked.listLink none ((before ++ rest).map some) := by
    rw [kept.listLink, List.map_append]
    have ring := numbered.ring
    rw [List.map_append, List.map_cons] at ring
    exact listDel_node ring
  have gone : proc ∉ before ++ rest := by
    have distinct := (List.nodup_cons.mp numbered.ring.distinct).2
    have distinct := List.Nodup.of_map _ distinct
    exact (List.nodup_middle.mp distinct).notMem
  have remain : ∀ node ∈ before ++ rest, node ∈ before ++ proc :: rest := by
    intro node member
    rcases List.mem_append.mp member with earlier | later
    · exact List.mem_append_left _ earlier
    · exact List.mem_append_right _ (List.mem_cons_of_mem _ later)
  refine ⟨unlinked, ran, fun listed => gone ((listed_iff ring).mp listed), before ++ rest, remain, ring,
    ⟨?_, ?_, ?_⟩, ?_, ?_, ?_⟩
  · rw [kept.lastPid]
    exact numbered.counted.low
  · rw [kept.nextSafe]
    exact numbered.counted.high
  · intro node member
    rw [kept.pids, kept.lastPid, kept.nextSafe]
    exact numbered.counted.between node (remain node member)
  · have count := numbered.count
    rw [kept.nrProcess]
    simp only [unhashProc, List.length_append, List.length_cons] at *
    omega
  · have most := numbered.most
    rw [kept.nrProcess]
    simp only [unhashProc]
    omega
  · intro node member
    rw [kept.parents]
    exact numbered.parents node (remain node member)

theorem step_good (event : Event) (numbered : ∃ nodes, Numbered k nodes) (meets : Meets k event) :
    ∃ after, step k event = some after ∧ Good k event after ∧ ∃ nodes, Numbered after nodes := by
  obtain ⟨nodes, numbered⟩ := numbered
  cases event with
  | fork parent proc =>
    by_cases full : maxProcess ≤ k.nrProcess
    · exact ⟨k, if_pos full, by simp only [Good, if_pos full], nodes, numbered⟩
    · have fresh : proc ∉ nodes := fun member => meets ((listed_iff numbered.ring).mpr member)
      obtain ⟨after, ran, fresh, numbers⟩ := fork_numbered numbered fresh (not_le.mp full)
      exact ⟨after, ran, by simpa only [Good, if_neg full], _, numbers⟩
  | reap proc =>
    obtain ⟨after, ran, gone, rest, -, numbers⟩ :=
      reap_numbered numbered ((listed_iff numbered.ring).mp meets)
    exact ⟨after, ran, ⟨gone, numbers.noneBetween⟩, rest, numbers⟩

theorem boot_numbered : Numbered boot [] := by
  refine ⟨⟨by simp, by simp [Segment, boot]⟩, ⟨?_, le_rfl, by simp⟩, rfl, ?_, by simp⟩
  all_goals decide

/-- Along every history of creations and reapings each `get_pid` ends with a pid of
its own, and the interval between the counters stays free of pids in use. A call
by itself needs no more than that interval, for the processes in any order. -/
theorem get_pid_fresh {events : List Event} (history : Runs.Along step Meets boot events) :
    Runs.Safe step Good boot events ∧
    ∀ (k : Table) (nodes : List Nat), IsRing k.listLink none (nodes.map some) →
      nodes.length ≤ maxProcess → 0 ≤ k.lastPid → k.nextSafe ≤ maxPid → NoneBetween k →
      ∃ counted pid, getPid k = some (counted, pid) ∧ 1 ≤ pid ∧ pid < maxPid ∧
        (∀ proc, Listed counted proc → (counted.procs proc).pid ≠ pid) ∧ NoneBetween counted := by
  refine ⟨Runs.safe_of_invariant
    (fun k event (ready : ∃ nodes, Numbered k nodes) meets => step_good event ready meets)
    ⟨[], boot_numbered⟩ history, ?_⟩
  intro k nodes ring few low high noneBetween
  have counted : Counted k nodes := by
    refine ⟨low, high, fun proc member => ?_⟩
    have apart := noneBetween proc ((listed_iff ring).mpr member)
    omega
  obtain ⟨last, next, got, positive, order, top, clear⟩ := getPid_returns ring few counted
  refine ⟨_, last, got, positive, by omega, fun proc listed same => ?_, fun proc listed between => ?_⟩
  all_goals
    have apart := clear proc ((listed_iff ring).mp listed)
    simp only at *
    omega

/-! ## A small family -/

theorem Numbered.unlisted {proc : Nat} (numbered : Numbered k nodes) (fresh : proc ∉ nodes) : ¬Listed k proc :=
  fun listed => fresh ((listed_iff numbered.ring).mp listed)

theorem Numbered.forked {k' : Table} {parent proc : Nat} (numbered : Numbered k nodes) (fresh : proc ∉ nodes)
    (few : nodes.length + 1 < maxProcess) (ran : step k (.fork parent proc) = some k') : Numbered k' (proc :: nodes) := by
  obtain ⟨after, forked, -, numbers⟩ := @fork_numbered k nodes parent proc numbered fresh (numbered.count ▸ few)
  cases forked.symm.trans ran
  exact numbers

/-- Three processes, of which the second is reaped before the fourth comes. -/
def familyLife : List Event := [.fork 0 1, .fork 1 2, .fork 1 3, .reap 2, .fork 1 4]

theorem familyLife_meets : Runs.Along step Meets boot familyLife := by
  refine ⟨boot_numbered.unlisted (by decide), fun k1 ran1 => ?_⟩
  have one := boot_numbered.forked (by decide) (by decide) ran1
  refine ⟨one.unlisted (by decide), fun k2 ran2 => ?_⟩
  have two := one.forked (by decide) (by decide) ran2
  refine ⟨two.unlisted (by decide), fun k3 ran3 => ?_⟩
  have three := two.forked (by decide) (by decide) ran3
  refine ⟨(listed_iff three.ring).mpr (by decide), fun k4 ran4 => ?_⟩
  obtain ⟨after, reaped, -, rest, remain, numbers⟩ := reap_numbered three (show 2 ∈ [3, 2, 1] by decide)
  cases reaped.symm.trans ran4
  exact ⟨numbers.unlisted fun member => absurd (remain member) (by decide), fun _ _ => trivial⟩

/-- The pids of three processes in no order, when the last pid of all was given out. -/
def wrapped : Table where
  procs addr := ⟨if addr = 1 then 2 else if addr = 2 then 8191 else 1, none, none, none, none⟩
  listLink := listAdd (listAdd (listAdd ⟨id, id⟩ none (some 3)) none (some 2)) none (some 1)
  hashLink := ⟨id, id⟩
  nrProcess := 4
  lastPid := 8191
  nextSafe := maxPid

/-- The family lives, and a search that starts again at pid 1 comes to the first pid that is free. -/
theorem get_pid_fresh_family : Runs.Safe step Good boot familyLife ∧
    ∃ counted pid, getPid wrapped = some (counted, pid) ∧ 1 ≤ pid ∧ pid < maxPid ∧
      (∀ proc, Listed counted proc → (counted.procs proc).pid ≠ pid) ∧ NoneBetween counted := by
  obtain ⟨lives, fresh⟩ := get_pid_fresh familyLife_meets
  have one : IsRing (listAdd ⟨id, id⟩ none (some 3)) none ([3].map some) :=
    @listAdd_between _ _ ⟨id, id⟩ none _ [] [] boot_numbered.ring (by decide)
  have two := @listAdd_between _ _ _ none _ [] _ one (show some 2 ∉ [none, some 3] by decide)
  have ring : IsRing wrapped.listLink none ([1, 2, 3].map some) :=
    @listAdd_between _ _ _ none _ [] _ two (show some 1 ∉ [none, some 2, some 3] by decide)
  refine ⟨lives, fresh wrapped [1, 2, 3] ring (by decide) (by decide) le_rfl fun proc _ between => ?_⟩
  simp only [wrapped, maxPid] at between
  omega

end Ucore.PidProofs
