import Ucore.Chain
import Ucore.PidProofs

/-! The family pointers over whole histories of `do_fork`, `do_exit` and `do_wait`. `do_exit`
hands its children to `initproc` one by one; `find_proc` goes through one list of the pid hash.
The links are compared with a tree of processes that knows no links. -/
namespace Ucore.FamilyLinks
open ProcTable ListHeader Chain Runs
open Ucore.Ring (IsRing)
open PidProofs (Listed Numbered)

def idleproc : Nat := 0

def setParent (k : Table) (proc parent : Nat) : Table := setProc k proc { k.procs proc with parent := some parent }

/-- One turn of the loop in `do_exit`. -/
def handChild (k : Table) (initproc exiting proc : Nat) : Table :=
  let k := setCptr k exiting (k.procs proc).optr
  let k := setYptr k (some proc) none
  let optr := (k.procs initproc).cptr
  let k := setOptr k proc optr
  let k := setYptr k optr (some proc)
  let k := setParent k proc initproc
  setCptr k initproc (some proc)

/-- `none` is a loop that is not over after so many turns. -/
def handChildren (k : Table) (initproc exiting : Nat) : Nat → Option Table
  | 0 => none
  | turns + 1 =>
    match (k.procs exiting).cptr with
    | none => some k
    | some proc => handChildren (handChild k initproc exiting proc) initproc exiting turns

/-- The loop of `find_proc` behind `le`. `none` is a loop that is not over after so many turns, or
that has left the list. -/
def findLoop (k : Table) (pid : Int) (list : HashNode) : Nat → HashNode → Option (Option Nat)
  | 0, _ => none
  | turns + 1, le =>
    let le := listNext k.hashLink le
    if le = list then some none
    else
      match le with
      | .bucket _ => none
      | .proc proc => if (k.procs proc).pid = pid then some (some proc) else findLoop k pid list turns le

def findProc (k : Table) (pid : Int) : Option (Option Nat) :=
  if 0 < pid && pid < maxPid then findLoop k pid (.bucket (pidHashfn pid)) maxProcess (.bucket (pidHashfn pid))
  else some none

inductive Event where
  | fork (parent proc : Nat)
  | exit (proc : Nat)
  | reap (proc : Nat)

def step (initproc : Nat) (k : Table) : Event → Option Table
  | .fork parent proc => doFork k parent proc
  | .exit proc => handChildren k initproc proc maxProcess
  | .reap proc => reap k proc

/-! ## Families without links -/

/-- `exited` are the processes in the state `PROC_ZOMBIE`. -/
structure Tree where
  procs : Finset Nat
  exited : Finset Nat
  kids : Nat → List Nat

/-- What the kernel and its callers see to: memory from `kmalloc` is no process's, a process that forks
or exits is running, `initproc` does not exit, and `do_wait` frees zombies only. -/
def Tree.Lawful (initproc : Nat) (tree : Tree) : Event → Prop
  | .fork parent proc => proc ∉ tree.procs ∧ proc ≠ idleproc ∧ (parent = idleproc ∨ parent ∈ tree.procs ∧ parent ∉ tree.exited)
  | .exit proc => proc ∈ tree.procs ∧ proc ∉ tree.exited ∧ proc ≠ initproc
  | .reap proc => proc ∈ tree.procs ∧ proc ∈ tree.exited

def Tree.step (initproc : Nat) (tree : Tree) : Event → Tree
  | .fork parent proc =>
    if maxProcess ≤ tree.procs.card + 1 then tree
    else ⟨insert proc tree.procs, tree.exited, Function.update tree.kids parent (proc :: tree.kids parent)⟩
  | .exit proc =>
    { tree with
      exited := insert proc tree.exited
      kids := Function.update (Function.update tree.kids initproc ((tree.kids proc).reverse ++ tree.kids initproc)) proc [] }
  | .reap proc => ⟨tree.procs.erase proc, tree.exited.erase proc, fun parent => (tree.kids parent).erase proc⟩

/-- The links are those of the tree. -/
structure Represents (k : Table) (tree : Tree) : Prop where
  listed : ∀ proc, Listed k proc ↔ proc ∈ tree.procs
  count : k.nrProcess = tree.procs.card + 1
  parents : ∀ parent proc, proc ∈ tree.kids parent ↔ proc ∈ tree.procs ∧ (k.procs proc).parent = some parent
  first : ∀ parent, (k.procs parent).cptr = (tree.kids parent).head?
  chain : ∀ parent, IsChain (fun proc => (k.procs proc).optr) (fun proc => (k.procs proc).yptr) (tree.kids parent)

variable {table after : Table} {tree : Tree} {initproc parent proc : Nat}

/-! ## What the operations do to the pointers -/

theorem setProc_same {α : Type} (field : ProcStruct → α) {addr : Nat} {entry : ProcStruct} (same : field entry = field (table.procs addr)) (x : Nat) :
    field ((setProc table addr entry).procs x) = field (table.procs x) := by
  by_cases here : x = addr
  · subst here
    simpa [setProc] using same
  · simp [setProc, here]

theorem setYptr_same {α : Type} (field : ProcStruct → α) {addr yptr : Option Nat}
    (same : ∀ entry : ProcStruct, field { entry with yptr } = field entry) (x : Nat) :
    field ((setYptr table addr yptr).procs x) = field (table.procs x) := by
  cases addr with
  | none => rfl
  | some addr => exact setProc_same field (same _) x

@[simp] theorem parent_setYptr (addr yptr : Option Nat) (x : Nat) : ((setYptr table addr yptr).procs x).parent = (table.procs x).parent :=
  setYptr_same ProcStruct.parent (fun _ => rfl) x

@[simp] theorem cptr_setYptr (addr yptr : Option Nat) (x : Nat) : ((setYptr table addr yptr).procs x).cptr = (table.procs x).cptr :=
  setYptr_same ProcStruct.cptr (fun _ => rfl) x

@[simp] theorem optr_setYptr (addr yptr : Option Nat) (x : Nat) : ((setYptr table addr yptr).procs x).optr = (table.procs x).optr :=
  setYptr_same ProcStruct.optr (fun _ => rfl) x

@[simp] theorem yptr_setYptr (addr yptr : Option Nat) (x : Nat) :
    ((setYptr table addr yptr).procs x).yptr = if addr = some x then yptr else (table.procs x).yptr := by
  cases addr with
  | none => simp [setYptr]
  | some addr =>
    by_cases here : x = addr
    · simp [setYptr, setProc, here]
    · simp [setYptr, setProc, here, Ne.symm here]

@[simp] theorem parent_setOptr (addr : Nat) (optr : Option Nat) (x : Nat) : ((setOptr table addr optr).procs x).parent = (table.procs x).parent := by
  by_cases here : x = addr <;> simp [setOptr, setProc, here]

@[simp] theorem cptr_setOptr (addr : Nat) (optr : Option Nat) (x : Nat) : ((setOptr table addr optr).procs x).cptr = (table.procs x).cptr := by
  by_cases here : x = addr <;> simp [setOptr, setProc, here]

@[simp] theorem yptr_setOptr (addr : Nat) (optr : Option Nat) (x : Nat) : ((setOptr table addr optr).procs x).yptr = (table.procs x).yptr := by
  by_cases here : x = addr <;> simp [setOptr, setProc, here]

@[simp] theorem optr_setOptr (addr : Nat) (optr : Option Nat) (x : Nat) :
    ((setOptr table addr optr).procs x).optr = if x = addr then optr else (table.procs x).optr := by
  by_cases here : x = addr <;> simp [setOptr, setProc, here]

@[simp] theorem parent_setCptr (addr : Nat) (cptr : Option Nat) (x : Nat) : ((setCptr table addr cptr).procs x).parent = (table.procs x).parent := by
  by_cases here : x = addr <;> simp [setCptr, setProc, here]

@[simp] theorem optr_setCptr (addr : Nat) (cptr : Option Nat) (x : Nat) : ((setCptr table addr cptr).procs x).optr = (table.procs x).optr := by
  by_cases here : x = addr <;> simp [setCptr, setProc, here]

@[simp] theorem yptr_setCptr (addr : Nat) (cptr : Option Nat) (x : Nat) : ((setCptr table addr cptr).procs x).yptr = (table.procs x).yptr := by
  by_cases here : x = addr <;> simp [setCptr, setProc, here]

@[simp] theorem cptr_setCptr (addr : Nat) (cptr : Option Nat) (x : Nat) :
    ((setCptr table addr cptr).procs x).cptr = if x = addr then cptr else (table.procs x).cptr := by
  by_cases here : x = addr <;> simp [setCptr, setProc, here]

@[simp] theorem cptr_setParent (addr parent x : Nat) : ((setParent table addr parent).procs x).cptr = (table.procs x).cptr := by
  by_cases here : x = addr <;> simp [setParent, setProc, here]

@[simp] theorem optr_setParent (addr parent x : Nat) : ((setParent table addr parent).procs x).optr = (table.procs x).optr := by
  by_cases here : x = addr <;> simp [setParent, setProc, here]

@[simp] theorem yptr_setParent (addr parent x : Nat) : ((setParent table addr parent).procs x).yptr = (table.procs x).yptr := by
  by_cases here : x = addr <;> simp [setParent, setProc, here]

@[simp] theorem parent_setParent (addr parent x : Nat) :
    ((setParent table addr parent).procs x).parent = if x = addr then some parent else (table.procs x).parent := by
  by_cases here : x = addr <;> simp [setParent, setProc, here]

/-- A process is the first child of its parent now. -/
structure Pushed (before after : Table) (parent proc : Nat) : Prop where
  parents : ∀ x, (after.procs x).parent = (before.procs x).parent
  cptr : ∀ x, (after.procs x).cptr = if x = parent then some proc else (before.procs x).cptr
  optr : ∀ x, (after.procs x).optr = if x = proc then (before.procs parent).cptr else (before.procs x).optr
  yptr : ∀ x, (after.procs x).yptr =
    if (before.procs parent).cptr = some x then some proc else if x = proc then none else (before.procs x).yptr

theorem setLinks_pushed (child : (table.procs proc).parent = some parent) :
    ∃ linked, setLinks table proc = some linked ∧ Pushed table linked parent proc := by
  unfold setLinks
  simp only [parent_setYptr, child, Option.bind_eq_bind, Option.bind_some, Option.pure_def]
  exact ⟨_, rfl, fun x => by simp, fun x => by simp, fun x => by simp, fun x => by simp [@eq_comm _ proc x]⟩

/-- A process is no child of its parent any more; its own pointers are left as they are. -/
structure Removed (before after : Table) (parent proc : Nat) : Prop where
  parents : ∀ x, (after.procs x).parent = (before.procs x).parent
  cptr : ∀ x, (after.procs x).cptr = if (before.procs proc).yptr = none ∧ x = parent then (before.procs proc).optr else (before.procs x).cptr
  optr : ∀ x, (after.procs x).optr = if (before.procs proc).yptr = some x then (before.procs proc).optr else (before.procs x).optr
  yptr : ∀ x, (after.procs x).yptr = if (before.procs proc).optr = some x then (before.procs proc).yptr else (before.procs x).yptr

theorem removeLinks_removed (child : (table.procs proc).parent = some parent) (apart : (table.procs proc).optr ≠ some proc) :
    ∃ unlinked, removeLinks table proc = some unlinked ∧ Removed table unlinked parent proc := by
  unfold removeLinks
  simp only [parent_setYptr, yptr_setYptr, optr_setYptr, child, if_neg apart, Option.bind_eq_bind, Option.map_some, Option.pure_def]
  cases younger : (table.procs proc).yptr with
  | none => exact ⟨_, rfl, fun x => by simp, fun x => by simp [younger], fun x => by simp [younger], fun x => by simp [younger]⟩
  | some other =>
    exact ⟨_, rfl, fun x => by simp, fun x => by simp [younger], fun x => by simp [younger, @eq_comm _ other x], fun x => by simp [younger]⟩

/-- Nothing but the family pointers is different. -/
structure Beside (before after : Table) : Prop where
  listLink : after.listLink = before.listLink
  hashLink : after.hashLink = before.hashLink
  nrProcess : after.nrProcess = before.nrProcess
  lastPid : after.lastPid = before.lastPid
  nextSafe : after.nextSafe = before.nextSafe
  pids : ∀ x, (after.procs x).pid = (before.procs x).pid

theorem Beside.trans {between : Table} (first : Beside table between) (second : Beside between after) : Beside table after where
  listLink := second.listLink.trans first.listLink
  hashLink := second.hashLink.trans first.hashLink
  nrProcess := second.nrProcess.trans first.nrProcess
  lastPid := second.lastPid.trans first.lastPid
  nextSafe := second.nextSafe.trans first.nextSafe
  pids x := (second.pids x).trans (first.pids x)

theorem setProc_beside {addr : Nat} {entry : ProcStruct} (same : entry.pid = (table.procs addr).pid) : Beside table (setProc table addr entry) :=
  ⟨rfl, rfl, rfl, rfl, rfl, setProc_same ProcStruct.pid same⟩

theorem setYptr_beside (addr yptr : Option Nat) : Beside table (setYptr table addr yptr) := by
  cases addr with
  | none => exact ⟨rfl, rfl, rfl, rfl, rfl, fun _ => rfl⟩
  | some addr => exact setProc_beside rfl

theorem handChild_beside (initproc exiting proc : Nat) : Beside table (handChild table initproc exiting proc) := by
  have setCptr_beside {table : Table} (addr : Nat) (cptr : Option Nat) : Beside table (setCptr table addr cptr) := by
    apply setProc_beside
    rfl
  have setOptr_beside {table : Table} (addr : Nat) (optr : Option Nat) : Beside table (setOptr table addr optr) := by
    apply setProc_beside
    rfl
  have setParent_beside {table : Table} (addr parent : Nat) : Beside table (setParent table addr parent) := by
    apply setProc_beside
    rfl
  unfold handChild
  exact (((((setCptr_beside _ _).trans (setYptr_beside _ _)).trans (setOptr_beside _ _)).trans (setYptr_beside _ _)).trans
    (setParent_beside _ _)).trans (setCptr_beside _ _)

/-- What one turn does to the pointers. -/
structure Handed (before after : Table) (initproc exiting proc : Nat) : Prop where
  parents : ∀ x, (after.procs x).parent = if x = proc then some initproc else (before.procs x).parent
  cptr : ∀ x, (after.procs x).cptr = if x = initproc then some proc else if x = exiting then (before.procs proc).optr else (before.procs x).cptr
  optr : ∀ x, (after.procs x).optr = if x = proc then (before.procs initproc).cptr else (before.procs x).optr
  yptr : ∀ x, (after.procs x).yptr =
    if (before.procs initproc).cptr = some x then some proc else if x = proc then none else (before.procs x).yptr

theorem handChild_handed {initproc exiting : Nat} (apart : initproc ≠ exiting) : Handed table (handChild table initproc exiting proc) initproc exiting proc := by
  refine ⟨fun x => by simp [handChild], fun x => by simp [handChild], fun x => by simp [handChild, apart], fun x => ?_⟩
  simp [handChild, apart, @eq_comm _ proc x]

/-- What the whole loop does to them: all children are in front of those of `initproc`, last one first. -/
structure HandedAll (before after : Table) (initproc exiting : Nat) (rest kids : List Nat) : Prop where
  parents : ∀ x, (after.procs x).parent = if x ∈ rest then some initproc else (before.procs x).parent
  first : (after.procs initproc).cptr = (rest.reverse ++ kids).head?
  none : (after.procs exiting).cptr = none
  cptr : ∀ x, x ≠ initproc → x ≠ exiting → (after.procs x).cptr = (before.procs x).cptr
  chain : IsChain (fun x => (after.procs x).optr) (fun x => (after.procs x).yptr) (rest.reverse ++ kids)
  others : ∀ x, x ∉ rest → x ∉ kids → (after.procs x).optr = (before.procs x).optr ∧ (after.procs x).yptr = (before.procs x).yptr

/-- The first child that is left still points back to the one before it; only `optr` is used. -/
theorem handChildren_returns {initproc exiting turns : Nat} {rest kids : List Nat} (apart : initproc ≠ exiting) (enough : rest.length < turns)
    (distinct : (rest.reverse ++ kids).Nodup) (start : (table.procs exiting).cptr = rest.head?)
    (forwards : ∀ before x later, rest = before ++ x :: later → (table.procs x).optr = later.head?)
    (first : (table.procs initproc).cptr = kids.head?)
    (chain : IsChain (fun x => (table.procs x).optr) (fun x => (table.procs x).yptr) kids) :
    ∃ after, handChildren table initproc exiting turns = some after ∧ HandedAll table after initproc exiting rest kids ∧ Beside table after := by
  induction rest generalizing table kids turns with
  | nil =>
    obtain ⟨turns, rfl⟩ := Nat.exists_eq_succ_of_ne_zero (Nat.ne_of_gt enough)
    refine ⟨table, by simp [handChildren, start], ⟨by simp, by simpa using first, start, fun _ _ _ => rfl, by simpa using chain, fun _ _ _ => ⟨rfl, rfl⟩⟩, ?_⟩
    exact ⟨rfl, rfl, rfl, rfl, rfl, fun _ => rfl⟩
  | cons proc rest ih =>
    obtain ⟨turns, rfl⟩ := Nat.exists_eq_succ_of_ne_zero (Nat.ne_of_gt (Nat.zero_lt_of_lt enough))
    have handed : Handed table (handChild table initproc exiting proc) initproc exiting proc := handChild_handed apart
    rw [List.reverse_cons, List.append_assoc, List.singleton_append] at distinct
    have fresh : proc ∉ kids := (List.nodup_cons.mp (List.nodup_append.mp distinct).2.1).1
    have away (x : Nat) (inRest : x ∈ rest) : x ≠ proc := by
      rintro rfl
      exact (List.nodup_append.mp distinct).2.2 x (List.mem_reverse.mpr inRest) x List.mem_cons_self rfl
    have elsewhere (x : Nat) (inKids : x ∈ kids) : x ≠ proc := fun same => fresh (same ▸ inKids)
    have longer : IsChain (fun x => ((handChild table initproc exiting proc).procs x).optr)
        (fun x => ((handChild table initproc exiting proc).procs x).yptr) (proc :: kids) := by
      apply chain.cons fresh
      · simp [handed.optr, first]
      · have notFirst : kids.head? ≠ some proc := fun front => fresh (List.mem_of_head? front)
        simp [handed.yptr, first, notFirst]
      · intro x inKids
        simp [handed.optr, elsewhere x inKids]
      · intro x inKids
        simp [handed.yptr, first, elsewhere x inKids]
    have left : ((handChild table initproc exiting proc).procs exiting).cptr = rest.head? := by
      rw [handed.cptr, if_neg apart.symm, if_pos rfl]
      exact forwards [] proc rest rfl
    have front : ((handChild table initproc exiting proc).procs initproc).cptr = (proc :: kids).head? := by simp [handed.cptr]
    have still : ∀ before x later, rest = before ++ x :: later → ((handChild table initproc exiting proc).procs x).optr = later.head? := by
      intro before x later split
      rw [handed.optr, if_neg (away x (by simp [split]))]
      exact forwards (proc :: before) x later (by simp [split])
    obtain ⟨after, ran, all, beside⟩ := ih (Nat.lt_of_succ_lt_succ enough) distinct left still front longer
    refine ⟨after, ?_, ⟨fun x => ?_, ?_, all.none, fun x notInit notExiting => ?_, ?_, fun x notRest notKids => ?_⟩,
      (handChild_beside initproc exiting proc).trans beside⟩
    · simpa [handChildren, start] using ran
    · rw [all.parents, handed.parents]
      by_cases inRest : x ∈ rest
      · simp [inRest]
      · simp [inRest]
    · simpa using all.first
    · rw [all.cptr x notInit notExiting, handed.cptr, if_neg notInit, if_neg notExiting]
    · simpa using all.chain
    · obtain ⟨notProc, notRest⟩ : x ≠ proc ∧ x ∉ rest := by simpa using notRest
      have same := all.others x notRest (by simp [notProc, notKids])
      have notFirst : kids.head? ≠ some x := fun front => notKids (List.mem_of_head? front)
      rw [same.1, same.2, handed.optr, handed.yptr, first, if_neg notProc, if_neg notFirst, if_neg notProc]
      exact ⟨rfl, rfl⟩

/-! ## Steps -/

/-- Between events: only a process that is running, or `idleproc`, has children. -/
structure Kept (table : Table) (tree : Tree) : Prop where
  numbered : ∃ nodes, Numbered table nodes
  represents : Represents table tree
  childless : ∀ parent, tree.kids parent ≠ [] → parent = idleproc ∨ parent ∈ tree.procs ∧ parent ∉ tree.exited
  exited : tree.exited ⊆ tree.procs

/-- `initproc` has been created. -/
def InitRuns (initproc : Nat) (tree : Tree) : Prop := initproc ∈ tree.procs ∧ initproc ∉ tree.exited

theorem Represents.disjoint (represents : Represents table tree) {other x : Nat} (inside : x ∈ tree.kids parent) (also : x ∈ tree.kids other) : parent = other :=
  Option.some.inj (((represents.parents _ _).mp inside).2.symm.trans ((represents.parents _ _).mp also).2)

theorem getPid_procs {counted : Table} {pid : Int} (got : getPid table = some (counted, pid)) : counted.procs = table.procs ∧ counted.listLink = table.listLink ∧
    counted.hashLink = table.hashLink := by
  unfold getPid ProcTable.inside at got
  simp only [] at got
  split at got
  · obtain ⟨found, -, same⟩ := Option.map_eq_some_iff.mp got
    cases same
    exact ⟨rfl, rfl, rfl⟩
  · split at got
    · obtain ⟨found, -, same⟩ := Option.map_eq_some_iff.mp got
      cases same
      exact ⟨rfl, rfl, rfl⟩
    · cases got
      exact ⟨rfl, rfl, rfl⟩

/-- A new process is made beside the others, and pushed. -/
theorem doFork_pushed (ran : doFork table parent proc = some after) (room : table.nrProcess < maxProcess) :
    ∃ base, Pushed base after parent proc ∧ (∀ x, x ≠ proc → base.procs x = table.procs x) ∧
      (base.procs proc).parent = some parent ∧ (base.procs proc).cptr = none := by
  unfold doFork at ran
  rw [if_neg (Nat.not_le.mpr room)] at ran
  obtain ⟨⟨counted, pid⟩, got, linked⟩ := Option.bind_eq_some_iff.mp ran
  have procs := (getPid_procs got).1
  have base (x : Nat) : (hashProc (setProc counted proc { counted.procs proc with pid }) proc).procs x =
      if x = proc then ⟨pid, some parent, none, none, none⟩ else table.procs x := by
    by_cases own : x = proc
    · simp [own, hashProc, setProc, procs, allocProc]
    · simp [own, hashProc, setProc, procs, allocProc]
  have child : ((hashProc (setProc counted proc { counted.procs proc with pid }) proc).procs proc).parent = some parent := by simp [base]
  obtain ⟨after', ran', pushed⟩ := setLinks_pushed child
  cases linked.symm.trans ran'
  exact ⟨_, pushed, fun x apart => by rw [base, if_neg apart], child, by simp [base]⟩

theorem Kept.fork (kept : Kept table tree) (lawful : tree.Lawful initproc (.fork parent proc)) :
    ∃ after, step initproc table (.fork parent proc) = some after ∧ Kept after (tree.step initproc (.fork parent proc)) ∧
      (InitRuns initproc tree → InitRuns initproc (tree.step initproc (.fork parent proc))) := by
  obtain ⟨⟨nodes, numbered⟩, represents, childless, dead⟩ := kept
  have count := represents.count
  rw [step, Tree.step]
  by_cases full : maxProcess ≤ table.nrProcess
  · have full' : maxProcess ≤ tree.procs.card + 1 := count ▸ full
    rw [if_pos full']
    exact ⟨table, if_pos full, ⟨⟨nodes, numbered⟩, represents, childless, dead⟩, fun runs => runs⟩
  · have room : table.nrProcess < maxProcess := not_le.mp full
    have room' : ¬ maxProcess ≤ tree.procs.card + 1 := count ▸ full
    rw [if_neg room']
    obtain ⟨fresh', notIdle, alive⟩ := lawful
    have unlisted : ¬ Listed table proc := fun listed => fresh' ((represents.listed proc).mp listed)
    have fresh : proc ∉ nodes := fun member => unlisted ((PidProofs.listed_iff numbered.ring).mpr member)
    obtain ⟨after, ran, numbers⟩ : ∃ after, doFork table parent proc = some after ∧ Numbered after (proc :: nodes) := by
      obtain ⟨after, ran, -, numbers⟩ := PidProofs.fork_numbered numbered fresh room
      exact ⟨after, ran, numbers⟩
    obtain ⟨base, pushed, others, child, alone⟩ := doFork_pushed ran room
    have unborn (other : Nat) : proc ∉ tree.kids other := fun inside => fresh' ((represents.parents _ _).mp inside).1
    have none : tree.kids proc = [] := by
      by_contra some
      rcases childless proc some with idle | ⟨inside, -⟩
      · exact notIdle idle
      · exact fresh' inside
    have apart : parent ≠ proc := by
      rintro rfl
      rcases alive with idle | ⟨inside, -⟩
      · exact notIdle idle
      · exact fresh' inside
    have front : (base.procs parent).cptr = (tree.kids parent).head? := by rw [others parent apart, represents.first]
    have elsewhere {other x : Nat} (inside : x ∈ tree.kids other) : x ≠ proc := fun same => unborn other (same ▸ inside)
    refine ⟨after, ran, ⟨⟨_, numbers⟩, ⟨fun x => ?_, ?_, fun other x => ?_, fun other => ?_, fun other => ?_⟩, fun other some => ?_, ?_⟩, fun init => ?_⟩
    · have before : x ∈ nodes ↔ x ∈ tree.procs := (PidProofs.listed_iff numbered.ring).symm.trans (represents.listed x)
      rw [PidProofs.listed_iff numbers.ring, List.mem_cons, before, Finset.mem_insert]
    · rw [Finset.card_insert_of_notMem fresh', numbers.count, List.length_cons, ← numbered.count, count]
    · dsimp only
      rw [pushed.parents, Finset.mem_insert]
      by_cases own : x = proc
      · subst own
        rw [child]
        by_cases same : other = parent
        · simp [same]
        · simp [same, unborn, Ne.symm same]
      · rw [others x own, or_iff_right own, ← represents.parents]
        by_cases same : other = parent
        · simp [same, own]
        · rw [Function.update_of_ne same]
    · dsimp only
      rw [pushed.cptr]
      by_cases same : other = parent
      · simp [same]
      · rw [if_neg same, Function.update_of_ne same]
        by_cases own : other = proc
        · rw [own, alone, none]
          rfl
        · rw [others other own, represents.first]
    · dsimp only
      have chain := represents.chain other
      by_cases same : other = parent
      · subst same
        rw [Function.update_self]
        apply chain.cons (unborn other)
        · simp [pushed.optr, front]
        · have notFirst : (tree.kids other).head? ≠ some proc := fun first => unborn other (List.mem_of_head? first)
          simp [pushed.yptr, front, notFirst]
        · intro x inside
          simp [pushed.optr, elsewhere inside, others x (elsewhere inside)]
        · intro x inside
          simp [pushed.yptr, front, elsewhere inside, others x (elsewhere inside)]
      · rw [Function.update_of_ne same]
        apply chain.congr
        · intro x inside
          simp [pushed.optr, elsewhere inside, others x (elsewhere inside)]
        · intro x inside
          have notFirst : (tree.kids parent).head? ≠ some x := fun first => same (represents.disjoint inside (List.mem_of_head? first))
          simp [pushed.yptr, front, notFirst, elsewhere inside, others x (elsewhere inside)]
    · by_cases same : other = parent
      · subst same
        exact alive.imp id fun running => ⟨Finset.mem_insert_of_mem running.1, running.2⟩
      · simp only [Function.update_of_ne same] at some
        exact (childless other some).imp id fun running => ⟨Finset.mem_insert_of_mem running.1, running.2⟩
    · exact dead.trans (Finset.subset_insert _ _)
    · exact ⟨Finset.mem_insert_of_mem init.1, init.2⟩

theorem Represents.length_le (represents : Represents table tree) (parent : Nat) : (tree.kids parent).length ≤ tree.procs.card := by
  rw [← List.toFinset_card_of_nodup (represents.chain parent).distinct]
  apply Finset.card_le_card
  intro x inside
  exact ((represents.parents parent x).mp (List.mem_toFinset.mp inside)).1

/-- The list of processes does not depend on the family. -/
theorem Numbered.beside {nodes : List Nat} (numbered : Numbered table nodes) (beside : Beside table after)
    (parents : ∀ x ∈ nodes, ∃ parent, (after.procs x).parent = some parent) : Numbered after nodes := by
  refine ⟨by rw [beside.listLink]; exact numbered.ring, ⟨?_, ?_, fun x inside => ?_⟩, ?_, ?_, parents⟩
  · rw [beside.lastPid]
    exact numbered.counted.low
  · rw [beside.nextSafe]
    exact numbered.counted.high
  · rw [beside.lastPid, beside.nextSafe, beside.pids]
    exact numbered.counted.between x inside
  · rw [beside.nrProcess]
    exact numbered.count
  · rw [beside.nrProcess]
    exact numbered.most

theorem Kept.exit (kept : Kept table tree) (init : InitRuns initproc tree) (lawful : tree.Lawful initproc (.exit proc)) :
    ∃ after, step initproc table (.exit proc) = some after ∧ Kept after (tree.step initproc (.exit proc)) ∧
      InitRuns initproc (tree.step initproc (.exit proc)) := by
  obtain ⟨⟨nodes, numbered⟩, represents, childless, dead⟩ := kept
  obtain ⟨inside, running, notInit⟩ := lawful
  have apart : initproc ≠ proc := notInit.symm
  have split (x : Nat) (inside : x ∈ tree.kids proc) (also : x ∈ tree.kids initproc) : False := apart (represents.disjoint also inside)
  have distinct : ((tree.kids proc).reverse ++ tree.kids initproc).Nodup := by
    rw [List.nodup_append]
    refine ⟨List.nodup_reverse.mpr (represents.chain proc).distinct, (represents.chain _).distinct, ?_⟩
    rintro x inside _ also rfl
    exact split x (List.mem_reverse.mp inside) also
  have enough : (tree.kids proc).length < maxProcess := by
    have most := numbered.most
    have count := represents.count
    have few := represents.length_le proc
    omega
  have forwards (before : List Nat) (x : Nat) (later : List Nat) (split : tree.kids proc = before ++ x :: later) :
      (table.procs x).optr = later.head? := ((represents.chain proc).linked before x later split).2
  obtain ⟨after, ran, all, beside⟩ :=
    handChildren_returns apart enough distinct (represents.first proc) forwards (represents.first _) (represents.chain _)
  have listed (x : Nat) : Listed after x ↔ Listed table x := by
    simp only [Listed, beside.listLink]
  rw [step, Tree.step]
  refine ⟨after, ran, ⟨⟨nodes, Numbered.beside numbered beside fun x inside => ?_⟩,
    ⟨fun x => (listed x).trans (represents.listed x), beside.nrProcess.trans represents.count, fun other x => ?_, fun other => ?_, fun other => ?_⟩,
    fun other some => ?_, Finset.insert_subset inside dead⟩, ?_⟩
  · rw [all.parents]
    split
    · exact ⟨_, rfl⟩
    · exact numbered.parents x inside
  · dsimp only
    rw [all.parents]
    by_cases child : x ∈ tree.kids proc
    · have inside := ((represents.parents _ _).mp child).1
      have elsewhere (other : Nat) (away : other ≠ proc) : x ∉ tree.kids other := fun also => away (represents.disjoint also child)
      rw [if_pos child]
      by_cases own : other = proc
      · simp [own, apart]
      · rw [Function.update_of_ne own]
        by_cases here : other = initproc
        · simp [here, child, inside]
        · rw [Function.update_of_ne here]
          simp [elsewhere other own, Ne.symm here]
    · rw [if_neg child, ← represents.parents]
      by_cases own : other = proc
      · simp [own, child]
      · rw [Function.update_of_ne own]
        by_cases here : other = initproc
        · simp [here, child]
        · rw [Function.update_of_ne here]
  · dsimp only
    by_cases own : other = proc
    · rw [own, all.none, Function.update_self]
      rfl
    · rw [Function.update_of_ne own]
      by_cases here : other = initproc
      · rw [here, all.first, Function.update_self]
      · rw [all.cptr other here own, Function.update_of_ne here, represents.first]
  · dsimp only
    by_cases own : other = proc
    · rw [own, Function.update_self]
      exact IsChain.nil
    · rw [Function.update_of_ne own]
      by_cases here : other = initproc
      · rw [here, Function.update_self]
        exact all.chain
      · rw [Function.update_of_ne here]
        have same (x : Nat) (inside : x ∈ tree.kids other) :=
          all.others x (fun also => own (represents.disjoint inside also)) fun also => here (represents.disjoint inside also)
        exact (represents.chain other).congr (fun x inside => (same x inside).1) fun x inside => (same x inside).2
  · dsimp only at some ⊢
    by_cases own : other = proc
    · rw [own, Function.update_self] at some
      exact absurd rfl some
    · have stays (alive : other ∉ tree.exited) : other ∉ insert proc tree.exited := by
        rw [Finset.mem_insert]
        exact not_or.mpr ⟨own, alive⟩
      rw [Function.update_of_ne own] at some
      by_cases here : other = initproc
      · subst here
        exact .inr ⟨init.1, stays init.2⟩
      · rw [Function.update_of_ne here] at some
        exact (childless other some).imp id fun running => ⟨running.1, stays running.2⟩
  · refine ⟨init.1, ?_⟩
    rw [Finset.mem_insert]
    exact not_or.mpr ⟨apart, init.2⟩

theorem Kept.reap (kept : Kept table tree) (lawful : tree.Lawful initproc (.reap proc)) :
    ∃ after, step initproc table (.reap proc) = some after ∧ Kept after (tree.step initproc (.reap proc)) ∧
      (InitRuns initproc tree → InitRuns initproc (tree.step initproc (.reap proc))) := by
  obtain ⟨⟨nodes, numbered⟩, represents, childless, exited⟩ := kept
  obtain ⟨member', dead⟩ := lawful
  have member : proc ∈ nodes := (PidProofs.listed_iff numbered.ring).mp ((represents.listed proc).mpr member')
  obtain ⟨parent, child⟩ := numbered.parents proc member
  have inside : proc ∈ tree.kids parent := (represents.parents parent proc).mpr ⟨member', child⟩
  obtain ⟨before, later, split⟩ := List.append_of_mem inside
  have chain := represents.chain parent
  obtain ⟨younger, older⟩ := chain.linked before proc later split
  have gone : proc ∉ before ++ later := by
    have distinct := chain.distinct
    rw [split] at distinct
    exact (List.nodup_cons.mp (List.nodup_middle.mp distinct)).1
  have notOwn : ((unhashProc table proc).procs proc).optr ≠ some proc := by
    intro own
    exact gone (List.mem_append_right _ (List.mem_of_head? (older.symm.trans own)))
  obtain ⟨after, ran, -, rest, -, numbers⟩ := PidProofs.reap_numbered numbered member
  obtain ⟨after', ran', removed⟩ := removeLinks_removed (show ((unhashProc table proc).procs proc).parent = some parent from child) notOwn
  obtain ⟨after'', ran'', unlinked⟩ := PidProofs.removeLinks_returns (show ((unhashProc table proc).procs proc).parent = some parent from child)
  cases ran.symm.trans ran'
  cases ran.symm.trans ran''
  have listed (x : Nat) : Listed after x ↔ Listed table x ∧ x ≠ proc := by
    obtain ⟨left, right, rfl⟩ := List.append_of_mem member
    have ring := numbered.ring
    rw [List.map_append, List.map_cons] at ring
    have shorter : IsRing after.listLink none ((left ++ right).map some) := by
      rw [unlinked.listLink, List.map_append]
      exact listDel_node ring
    have once := List.Nodup.of_map _ (List.nodup_cons.mp numbered.ring.distinct).2
    have absent := (List.nodup_cons.mp (List.nodup_middle.mp once)).1
    rw [PidProofs.listed_iff shorter, PidProofs.listed_iff numbered.ring]
    constructor
    · intro inside
      refine ⟨?_, fun same => absent (same ▸ inside)⟩
      rcases List.mem_append.mp inside with inLeft | inRight
      · exact List.mem_append_left _ inLeft
      · exact List.mem_append_right _ (List.mem_cons_of_mem _ inRight)
    · rintro ⟨inside, apart⟩
      rcases List.mem_append.mp inside with inLeft | inRight
      · exact List.mem_append_left _ inLeft
      · exact List.mem_append_right _ ((List.mem_cons.mp inRight).resolve_left apart)
  have erased : (tree.kids parent).erase proc = before ++ later := by
    rw [split, List.erase_append_right _ fun early => gone (List.mem_append_left _ early), List.erase_cons_head]
  have others (other : Nat) (apart : other ≠ parent) : (tree.kids other).erase proc = tree.kids other :=
    List.erase_of_not_mem fun also => apart (represents.disjoint also inside)
  have stays (other : Nat) (alive : other ∉ tree.exited) : other ≠ proc ∧ other ∉ tree.exited.erase proc := by
    refine ⟨?_, fun erased => alive (Finset.mem_of_mem_erase erased)⟩
    rintro rfl
    exact alive dead
  rw [step, Tree.step]
  refine ⟨after, ran, ⟨⟨rest, numbers⟩, ⟨fun x => ?_, ?_, fun other x => ?_, fun other => ?_, fun other => ?_⟩, fun other some => ?_,
    Finset.erase_subset_erase proc exited⟩, fun init => ?_⟩
  · rw [listed, represents.listed, Finset.mem_erase, and_comm]
  · dsimp only
    have positive : 0 < tree.procs.card := Finset.card_pos.mpr ⟨proc, member'⟩
    rw [Finset.card_erase_of_mem member', unlinked.nrProcess, Nat.sub_add_cancel positive]
    exact Nat.sub_eq_of_eq_add represents.count
  · dsimp only
    rw [(represents.chain other).distinct.mem_erase_iff, removed.parents, represents.parents, Finset.mem_erase, and_assoc]
    rfl
  · dsimp only
    rw [removed.cptr]
    by_cases own : other = parent
    · subst own
      rw [erased]
      cases before with
      | nil => simpa [unhashProc, younger] using older
      | cons first before =>
        have front := represents.first other
        rw [split] at front
        have before : ((unhashProc table proc).procs proc).yptr ≠ none := by
          simp [unhashProc, younger]
        rw [if_neg fun both => before both.1]
        simpa [unhashProc] using front
    · rw [if_neg fun both => own both.2, others other own]
      exact represents.first other
  · dsimp only
    by_cases own : other = parent
    · subst own
      rw [erased]
      rw [split] at chain
      apply chain.remove
      · intro x _
        rw [removed.optr]
        simp only [unhashProc, younger, older]
      · intro x _
        rw [removed.yptr]
        simp only [unhashProc, younger, older]
    · rw [others other own]
      have away (x : Nat) (among : x ∈ tree.kids other) : x ∉ before ++ later := by
        intro beside
        apply own
        apply represents.disjoint among
        rw [split]
        rcases List.mem_append.mp beside with early | late
        · exact List.mem_append_left _ early
        · exact List.mem_append_right _ (List.mem_cons_of_mem _ late)
      apply (represents.chain other).congr
      · intro x among
        have notYounger : ((unhashProc table proc).procs proc).yptr ≠ some x := fun same =>
          away x among (List.mem_append_left _ (List.mem_of_getLast? (younger.symm.trans same)))
        simp only [removed.optr, if_neg notYounger]
        rfl
      · intro x among
        have notOlder : ((unhashProc table proc).procs proc).optr ≠ some x := fun same =>
          away x among (List.mem_append_right _ (List.mem_of_head? (older.symm.trans same)))
        simp only [removed.yptr, if_neg notOlder]
        rfl
  · dsimp only at some ⊢
    have before : tree.kids other ≠ [] := fun none => some (by rw [none]; rfl)
    refine (childless other before).imp id fun running => ?_
    exact ⟨Finset.mem_erase.mpr ⟨(stays other running.2).1, running.1⟩, (stays other running.2).2⟩
  · exact ⟨Finset.mem_erase.mpr ⟨(stays _ init.2).1, init.1⟩, (stays _ init.2).2⟩

/-! ## Histories -/

/-- The tree makes every step of a history that is lawful for it. -/
def Tree.next (initproc : Nat) (tree : Tree) (event : Event) : Option Tree := some (tree.step initproc event)

instance (initproc : Nat) (tree : Tree) (event : Event) : Decidable (tree.Lawful initproc event) := by
  cases event <;> exact instDecidableAnd

theorem along_next_cons (event : Event) (events : List Event) : Along (Tree.next initproc) (Tree.Lawful initproc) tree (event :: events) ↔
    tree.Lawful initproc event ∧ Along (Tree.next initproc) (Tree.Lawful initproc) (tree.step initproc event) events := by
  simp [Along, Tree.next]

instance decidableLawful (initproc : Nat) (tree : Tree) : (events : List Event) → Decidable (Along (Tree.next initproc) (Tree.Lawful initproc) tree events)
  | [] => .isTrue trivial
  | event :: events =>
    have := decidableLawful initproc (tree.step initproc event) events
    decidable_of_iff _ (along_next_cons event events).symm

/-- `idleproc` runs alone. -/
def seed : Tree := ⟨∅, ∅, fun _ => []⟩

theorem boot_kept : Kept boot seed := by
  have nobody (proc : Nat) : ¬ Listed boot proc := by
    rw [PidProofs.listed_iff PidProofs.boot_numbered.ring]
    exact List.not_mem_nil
  refine ⟨⟨[], PidProofs.boot_numbered⟩, ⟨fun proc => ?_, rfl, fun parent proc => ?_, fun _ => rfl, fun _ => IsChain.nil⟩, fun _ some => absurd rfl some,
    Finset.empty_subset _⟩
  · exact iff_of_false (nobody proc) (Finset.notMem_empty proc)
  · simp [seed]

theorem Kept.step {event : Event} (kept : Kept table tree) (init : InitRuns initproc tree) (lawful : tree.Lawful initproc event) :
    ∃ after, step initproc table event = some after ∧ Kept after (tree.step initproc event) ∧ InitRuns initproc (tree.step initproc event) := by
  cases event with
  | fork parent proc =>
    obtain ⟨after, ran, kept', init'⟩ := kept.fork lawful
    exact ⟨after, ran, kept', init' init⟩
  | exit proc => exact kept.exit init lawful
  | reap proc =>
    obtain ⟨after, ran, kept', init'⟩ := kept.reap lawful
    exact ⟨after, ran, kept', init' init⟩

/-- No step of a history fails, and the links stay those of the tree. -/
theorem Kept.run {events : List Event} (kept : Kept table tree) (init : InitRuns initproc tree) (lawful : Along (Tree.next initproc) (Tree.Lawful initproc) tree events) :
    ∃ after, run (FamilyLinks.step initproc) table events = some after ∧ Kept after (events.foldl (Tree.step initproc) tree) := by
  induction events generalizing table tree with
  | nil => exact ⟨table, rfl, kept⟩
  | cons event events ih =>
    obtain ⟨between, ran, kept', init'⟩ := kept.step init lawful.1
    obtain ⟨after, ran', kept''⟩ := ih kept' init' (lawful.2 _ rfl)
    refine ⟨after, ?_, kept''⟩
    rw [Runs.run, ran, Option.bind_some, ran']

/-- `initproc` is there from the first step on. -/
theorem seed_init (initproc : Nat) : InitRuns initproc (seed.step initproc (.fork idleproc initproc)) :=
  ⟨Finset.mem_insert_self initproc ∅, Finset.notMem_empty _⟩

/-- Over every history of creations, exits and reapings no step fails, and the pointers are those of
the tree: each chain of siblings holds the processes with that parent, both ways, behind its `cptr`. -/
theorem family_links {events : List Event} (lawful : Along (Tree.next initproc) (Tree.Lawful initproc) seed (.fork idleproc initproc :: events)) :
    ∃ after, run (step initproc) boot (.fork idleproc initproc :: events) = some after ∧
      Represents after ((Event.fork idleproc initproc :: events).foldl (Tree.step initproc) seed) := by
  obtain ⟨between, ran, kept, -⟩ := boot_kept.fork lawful.1
  obtain ⟨after, ran', kept'⟩ := kept.run (seed_init initproc) (lawful.2 _ rfl)
  refine ⟨after, ?_, kept'.represents⟩
  rw [Runs.run, ran, Option.bind_some, ran']

/-- `initproc` inherits two children, and one of them is reaped. -/
theorem family_links_inherited : ∃ after,
    run (step 1) boot [.fork idleproc 1, .fork 1 2, .fork 2 3, .fork 2 4, .exit 2, .exit 3, .reap 3, .reap 2] = some after ∧
      Represents after ([Event.fork idleproc 1, .fork 1 2, .fork 2 3, .fork 2 4, .exit 2, .exit 3, .reap 3, .reap 2].foldl (Tree.step 1) seed) := by
  apply family_links
  decide

end Ucore.FamilyLinks
