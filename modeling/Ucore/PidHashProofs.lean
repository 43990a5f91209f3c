import Ucore.FamilyLinks

/-! The pid hash over whole histories. Every process is in the list of its pid, and pids are
distinct, so `find_proc` finds a process exactly when there is one with this pid. -/
namespace Ucore.FamilyLinks
open ProcTable ListHeader Runs
open Ucore.Ring (IsRing)
open PidProofs (Listed Numbered)

/-- The list of each bucket holds the processes whose pid belongs there. -/
structure Hashed (table : Table) (chains : Nat → List Nat) : Prop where
  ring : ∀ index, IsRing table.hashLink (.bucket index) ((chains index).map .proc)
  holds : ∀ index proc, proc ∈ chains index ↔ Listed table proc ∧ pidHashfn (table.procs proc).pid = index
  own : ∀ proc other, Listed table proc → Listed table other → (table.procs proc).pid = (table.procs other).pid → proc = other
  range : ∀ proc, Listed table proc → 1 ≤ (table.procs proc).pid ∧ (table.procs proc).pid < maxPid

variable {table after : Table} {tree : Tree} {initproc parent proc : Nat} {chains : Nat → List Nat}

/-! ## The search -/

theorem findLoop_finds {pid : Int} {list : HashNode} {before rest : List Nat} {turns : Nat}
    (ring : IsRing table.hashLink list ((before ++ rest).map .proc)) (enough : rest.length < turns) :
    findLoop table pid list turns ((list :: before.map .proc).getLast (by simp)) = some (rest.find? fun proc => (table.procs proc).pid = pid) := by
  induction rest generalizing before turns with
  | nil =>
    obtain ⟨turns, rfl⟩ := Nat.exists_eq_succ_of_ne_zero (Nat.ne_of_gt enough)
    have round : table.hashLink.next ((list :: before.map HashNode.proc).getLast (by simp)) = list := by
      have split : IsRing table.hashLink list (before.map HashNode.proc ++ []) := by simpa using ring
      simpa using split.next_between
    simp [findLoop, listNext, round]
  | cons proc rest ih =>
    obtain ⟨turns, rfl⟩ := Nat.exists_eq_succ_of_ne_zero (Nat.ne_of_gt (Nat.zero_lt_of_lt enough))
    have forward : table.hashLink.next ((list :: before.map HashNode.proc).getLast (by simp)) = .proc proc := by
      have split : IsRing table.hashLink list (before.map HashNode.proc ++ (proc :: rest).map HashNode.proc) := by simpa using ring
      simpa using split.next_between
    have apart : HashNode.proc proc ≠ list := by
      intro same
      have distinct := ring.distinct
      simp [← same] at distinct
    have split : IsRing table.hashLink list (((before ++ [proc]) ++ rest).map HashNode.proc) := by simpa using ring
    have further := ih split (Nat.lt_of_succ_lt_succ enough)
    simp only [findLoop, listNext, forward, if_neg apart, List.find?_cons]
    by_cases found : (table.procs proc).pid = pid
    · simp [found]
    · simpa [found] using further

theorem Hashed.find (hashed : Hashed table chains) (few : ∀ index, (chains index).length < maxProcess) (pid : Int) :
    ∃ found, findProc table pid = some found ∧ ∀ proc, found = some proc ↔ Listed table proc ∧ (table.procs proc).pid = pid := by
  unfold findProc
  split
  · have ring : IsRing table.hashLink (.bucket (pidHashfn pid)) (([] ++ chains (pidHashfn pid)).map .proc) := hashed.ring (pidHashfn pid)
    refine ⟨_, findLoop_finds ring (few (pidHashfn pid)), fun proc => ?_⟩
    constructor
    · intro found
      have same : (table.procs proc).pid = pid := by simpa using List.find?_some found
      exact ⟨((hashed.holds _ _).mp (List.mem_of_find?_eq_some found)).1, same⟩
    · rintro ⟨listed, same⟩
      have inside : proc ∈ chains (pidHashfn pid) := (hashed.holds _ _).mpr ⟨listed, by rw [same]⟩
      cases found : (chains (pidHashfn pid)).find? fun proc => (table.procs proc).pid = pid with
      | none =>
        have none := List.find?_eq_none.mp found proc inside
        simp [same] at none
      | some other =>
        have same' : (table.procs other).pid = pid := by simpa using List.find?_some found
        have listed' := ((hashed.holds _ _).mp (List.mem_of_find?_eq_some found)).1
        rw [hashed.own other proc listed' listed (same'.trans same.symm)]
  · rename_i outside
    refine ⟨none, rfl, fun proc => iff_of_false (by simp) ?_⟩
    rintro ⟨listed, rfl⟩
    have range := hashed.range proc listed
    simp only [Bool.and_eq_true, decide_eq_true_eq] at outside
    omega

/-! ## Steps -/

/-- The lists of two buckets have no node in common. -/
theorem Hashed.apart (hashed : Hashed table chains) {index other : Nat} (different : index ≠ other) :
    ∀ x ∈ HashNode.bucket index :: (chains index).map HashNode.proc, x ∉ HashNode.bucket other :: (chains other).map HashNode.proc := by
  intro x inside also
  rcases List.mem_cons.mp inside with rfl | inside
  · simp [different] at also
  · obtain ⟨proc, among, rfl⟩ := List.mem_map.mp inside
    have among' : proc ∈ chains other := by simpa using also
    exact different (((hashed.holds _ _).mp among).2.symm.trans ((hashed.holds _ _).mp among').2)

/-- What is in the lists stays there as long as the processes and their pids stay. -/
theorem Hashed.same (hashed : Hashed table chains) (listed : ∀ x, Listed after x ↔ Listed table x) (hashLink : after.hashLink = table.hashLink)
    (pids : ∀ x, (after.procs x).pid = (table.procs x).pid) : Hashed after chains := by
  refine ⟨fun index => by rw [hashLink]; exact hashed.ring index, fun index x => ?_, fun x y inX inY same => ?_, fun x member => ?_⟩
  · rw [listed, pids]
    exact hashed.holds index x
  · rw [pids, pids] at same
    exact hashed.own x y ((listed x).mp inX) ((listed y).mp inY) same
  · rw [pids]
    exact hashed.range x ((listed x).mp member)

theorem hashLink_setYptr (table : Table) (addr yptr : Option Nat) : (setYptr table addr yptr).hashLink = table.hashLink := (setYptr_beside addr yptr).hashLink

theorem setLinks_hash {linked : Table} (ran : setLinks table proc = some linked) : linked.hashLink = table.hashLink := by
  unfold setLinks at ran
  simp only [Option.bind_eq_bind, Option.bind_eq_some_iff, Option.pure_def, Option.some.injEq] at ran
  obtain ⟨parent, -, rfl⟩ := ran
  simp [setCptr, setOptr, setProc, hashLink_setYptr]

theorem removeLinks_hash {unlinked : Table} (ran : removeLinks table proc = some unlinked) : unlinked.hashLink = table.hashLink := by
  unfold removeLinks at ran
  simp only [Option.bind_eq_bind, Option.pure_def] at ran
  split at ran
  · simp only [Option.bind_some, Option.some.injEq] at ran
    subst ran
    simp [setOptr, setProc, hashLink_setYptr]
  · obtain ⟨between, ran, same⟩ := Option.bind_eq_some_iff.mp ran
    obtain ⟨parent, -, rfl⟩ := Option.map_eq_some_iff.mp ran
    cases same
    simp [setCptr, setProc, hashLink_setYptr]

/-- A new process goes to the front of the list of its pid. -/
theorem doFork_hash (ran : doFork table parent proc = some after) (room : table.nrProcess < maxProcess) :
    ∃ counted pid, getPid (allocProc table proc parent) = some (counted, pid) ∧ counted.listLink = table.listLink ∧
      (∀ x, x ≠ proc → (counted.procs x).pid = (table.procs x).pid) ∧
      after.hashLink = listAdd table.hashLink (.bucket (pidHashfn pid)) (.proc proc) ∧ (after.procs proc).pid = pid ∧
      ∀ x, x ≠ proc → (after.procs x).pid = (table.procs x).pid := by
  unfold doFork at ran
  rw [if_neg (Nat.not_le.mpr room)] at ran
  obtain ⟨⟨counted, pid⟩, got, linked⟩ := Option.bind_eq_some_iff.mp ran
  obtain ⟨procs, listLink, hashLink⟩ := getPid_procs got
  have child : ((hashProc (setProc counted proc { counted.procs proc with pid }) proc).procs proc).parent = some parent := by
    simp [hashProc, setProc, procs, allocProc]
  obtain ⟨after', ran', kept⟩ := PidProofs.setLinks_returns child
  cases linked.symm.trans ran'
  have hash := setLinks_hash linked
  refine ⟨counted, pid, got, ?_, fun x apart => ?_, ?_, ?_, fun x apart => ?_⟩
  · exact listLink
  · simp [procs, allocProc, setProc, apart]
  · rw [hash]
    simp [hashProc, setProc, hashLink, allocProc]
  · rw [kept.pids]
    simp [hashProc, setProc]
  · rw [kept.pids]
    simp [hashProc, setProc, procs, allocProc, apart]

theorem Hashed.fork (hashed : Hashed table chains) {nodes : List Nat} (numbered : Numbered table nodes) (fresh : proc ∉ nodes) (room : table.nrProcess < maxProcess)
    (ran : doFork table parent proc = some after) (listed : ∀ x, Listed after x ↔ x = proc ∨ Listed table x) : ∃ chains', Hashed after chains' := by
  obtain ⟨after', ran', unique⟩ : ∃ after', doFork table parent proc = some after' ∧ PidProofs.Fresh (allocProc table proc parent) proc after' := by
    obtain ⟨after', ran', unique, -⟩ := PidProofs.fork_numbered numbered fresh room
    exact ⟨after', ran', unique⟩
  cases ran.symm.trans ran'
  obtain ⟨counted, pid, got, low, high, new, -⟩ := unique
  obtain ⟨counted', pid', got', listLink, pids, hashLink, own, others⟩ := doFork_hash ran room
  cases got.symm.trans got'
  have unlisted : ¬ Listed table proc := fun member => fresh ((PidProofs.listed_iff numbered.ring).mp member)
  have away {x : Nat} (member : Listed table x) : x ≠ proc := fun same => unlisted (same ▸ member)
  have new (x : Nat) (member : Listed table x) : (table.procs x).pid ≠ pid := by
    rw [← pids x (away member)]
    apply new
    obtain ⟨turns, reached⟩ := member
    exact ⟨turns, by rwa [listLink]⟩
  have unhashed (index : Nat) : proc ∉ chains index := fun inside => unlisted ((hashed.holds _ _).mp inside).1
  have unlinked (index : Nat) : HashNode.proc proc ∉ HashNode.bucket index :: (chains index).map HashNode.proc := by
    simp [unhashed]
  refine ⟨Function.update chains (pidHashfn pid) (proc :: chains (pidHashfn pid)), fun index => ?_, fun index x => ?_, fun x y inX inY same => ?_, fun x member => ?_⟩
  · rw [hashLink]
    by_cases here : index = pidHashfn pid
    · subst here
      rw [Function.update_self]
      have front : IsRing table.hashLink (.bucket (pidHashfn pid)) ([] ++ (chains (pidHashfn pid)).map HashNode.proc) := hashed.ring _
      exact listAdd_between front (unlinked _)
    · rw [Function.update_of_ne here]
      exact listAdd_other (hashed.ring (pidHashfn pid)) (hashed.ring index) (hashed.apart (Ne.symm here)) (unlinked index)
  · rw [listed]
    by_cases new : x = proc
    · subst new
      by_cases here : index = pidHashfn pid
      · simp [here, own]
      · simp [here, own, unhashed, Ne.symm here]
    · rw [others x new, or_iff_right new, ← hashed.holds]
      by_cases here : index = pidHashfn pid
      · simp [here, new]
      · rw [Function.update_of_ne here]
  · rw [listed] at inX inY
    rcases inX with rfl | inX <;> rcases inY with rfl | inY
    · rfl
    · rw [own, others y (away inY)] at same
      exact absurd same.symm (new y inY)
    · rw [own, others x (away inX)] at same
      exact absurd same (new x inX)
    · rw [others x (away inX), others y (away inY)] at same
      exact hashed.own x y inX inY same
  · rcases (listed x).mp member with rfl | member
    · rw [own]
      exact ⟨low, high⟩
    · rw [others x (away member)]
      exact hashed.range x member

theorem Hashed.reap (hashed : Hashed table chains) (listed : Listed table proc) (child : (table.procs proc).parent = some parent)
    (ran : reap table proc = some after) (remain : ∀ x, Listed after x ↔ Listed table x ∧ x ≠ proc) : ∃ chains', Hashed after chains' := by
  have child' : ((unhashProc table proc).procs proc).parent = some parent := child
  obtain ⟨after', ran', kept⟩ := PidProofs.removeLinks_returns child'
  cases ran'.symm.trans ran
  have hashLink : after.hashLink = listDel table.hashLink (.proc proc) := removeLinks_hash ran
  have pids (x : Nat) : (after.procs x).pid = (table.procs x).pid := kept.pids x
  have inside : proc ∈ chains (pidHashfn (table.procs proc).pid) := (hashed.holds _ _).mpr ⟨listed, rfl⟩
  obtain ⟨before, later, split⟩ := List.append_of_mem inside
  have ring := hashed.ring (pidHashfn (table.procs proc).pid)
  have once : proc ∉ before ++ later := by
    have distinct := List.Nodup.of_map _ (List.nodup_cons.mp ring.distinct).2
    rw [split] at distinct
    exact (List.nodup_cons.mp (List.nodup_middle.mp distinct)).1
  refine ⟨Function.update chains (pidHashfn (table.procs proc).pid) (before ++ later), fun index => ?_, fun index x => ?_,
    fun x y inX inY same => ?_, fun x member => ?_⟩
  · rw [hashLink]
    by_cases here : index = pidHashfn (table.procs proc).pid
    · subst here
      rw [Function.update_self, List.map_append]
      rw [split, List.map_append, List.map_cons] at ring
      exact listDel_node ring
    · rw [Function.update_of_ne here]
      have member : HashNode.proc proc ∈ (chains (pidHashfn (table.procs proc).pid)).map HashNode.proc := List.mem_map_of_mem inside
      exact listDel_other ring member (hashed.ring index) (hashed.apart (Ne.symm here))
  · rw [remain, pids]
    by_cases here : index = pidHashfn (table.procs proc).pid
    · subst here
      rw [Function.update_self, and_right_comm, ← hashed.holds, split]
      constructor
      · intro among
        refine ⟨?_, fun same => once (same ▸ among)⟩
        rcases List.mem_append.mp among with early | late
        · exact List.mem_append_left _ early
        · exact List.mem_append_right _ (List.mem_cons_of_mem _ late)
      · rintro ⟨among, apart⟩
        rcases List.mem_append.mp among with early | late
        · exact List.mem_append_left _ early
        · exact List.mem_append_right _ ((List.mem_cons.mp late).resolve_left apart)
    · rw [Function.update_of_ne here, hashed.holds]
      constructor
      · rintro ⟨member, same⟩
        refine ⟨⟨member, ?_⟩, same⟩
        rintro rfl
        exact here same.symm
      · rintro ⟨⟨member, -⟩, same⟩
        exact ⟨member, same⟩
  · rw [pids, pids] at same
    exact hashed.own x y ((remain x).mp inX).1 ((remain y).mp inY).1 same
  · rw [pids]
    exact hashed.range x ((remain x).mp member).1

/-! ## Histories -/

theorem Hashed.few (hashed : Hashed table chains) (kept : Kept table tree) (index : Nat) : (chains index).length < maxProcess := by
  have distinct := List.Nodup.of_map _ (List.nodup_cons.mp (hashed.ring index).distinct).2
  have subset : (chains index).toFinset ⊆ tree.procs := by
    intro x inside
    exact (kept.represents.listed x).mp ((hashed.holds index x).mp (List.mem_toFinset.mp inside)).1
  have small := Finset.card_le_card subset
  rw [List.toFinset_card_of_nodup distinct] at small
  obtain ⟨nodes, numbered⟩ := kept.numbered
  have most := numbered.most
  have count := kept.represents.count
  omega

theorem boot_hashed : Hashed boot fun _ => [] := by
  have nobody (proc : Nat) : ¬ Listed boot proc := by
    rw [PidProofs.listed_iff PidProofs.boot_numbered.ring]
    exact List.not_mem_nil
  refine ⟨fun index => ⟨by simp, by simp [Ucore.Ring.Segment, boot]⟩, fun index proc => ?_, fun proc _ listed => ?_, fun proc listed => ?_⟩
  · simp [nobody]
  · exact absurd listed (nobody proc)
  · exact absurd listed (nobody proc)

theorem handChildren_beside {exiting turns : Nat} (ran : handChildren table initproc exiting turns = some after) : Beside table after := by
  induction turns generalizing table with
  | zero => cases ran
  | succ turns ih =>
    unfold handChildren at ran
    split at ran
    · cases ran
      exact ⟨rfl, rfl, rfl, rfl, rfl, fun _ => rfl⟩
    · exact (handChild_beside _ _ _).trans (ih ran)

/-- Each step keeps the hash in step with the table. -/
theorem Hashed.step {event : Event} (hashed : Hashed table chains) (kept : Kept table tree) (lawful : tree.Lawful initproc event)
    (ran : step initproc table event = some after) (kept' : Kept after (tree.step initproc event)) : ∃ chains', Hashed after chains' := by
  have listed := kept.represents.listed
  have listed' := kept'.represents.listed
  cases event with
  | fork parent proc =>
    obtain ⟨nodes, numbered⟩ := kept.numbered
    by_cases full : maxProcess ≤ table.nrProcess
    · have same : doFork table parent proc = some table := if_pos full
      cases ran.symm.trans same
      exact ⟨chains, hashed⟩
    · have room : ¬ maxProcess ≤ tree.procs.card + 1 := kept.represents.count ▸ full
      have fresh : proc ∉ nodes := fun member => lawful.1 ((listed proc).mp ((PidProofs.listed_iff numbered.ring).mpr member))
      apply hashed.fork numbered fresh (not_le.mp full) ran
      intro x
      rw [listed' x, Tree.step, if_neg room, Finset.mem_insert, listed]
  | exit proc =>
    have beside := handChildren_beside ran
    exact ⟨chains, hashed.same (fun x => by simp only [Listed, beside.listLink]) beside.hashLink beside.pids⟩
  | reap proc =>
    have member : Listed table proc := (listed proc).mpr lawful.1
    obtain ⟨nodes, numbered⟩ := kept.numbered
    obtain ⟨parent, child⟩ := numbered.parents proc ((PidProofs.listed_iff numbered.ring).mp member)
    apply hashed.reap member child ran
    intro x
    rw [listed' x, Tree.step, Finset.mem_erase, listed, and_comm]

theorem Hashed.run {events : List Event} (hashed : Hashed table chains) (kept : Kept table tree) (init : InitRuns initproc tree)
    (lawful : Along (Tree.next initproc) (Tree.Lawful initproc) tree events) :
    ∃ after, run (FamilyLinks.step initproc) table events = some after ∧ Kept after (events.foldl (Tree.step initproc) tree) ∧
      ∃ chains', Hashed after chains' := by
  induction events generalizing table tree chains with
  | nil => exact ⟨table, rfl, kept, chains, hashed⟩
  | cons event events ih =>
    obtain ⟨between, ran, kept', init'⟩ := kept.step init lawful.1
    obtain ⟨chains', hashed'⟩ := hashed.step kept lawful.1 ran kept'
    obtain ⟨after, ran', rest⟩ := ih hashed' kept' init' (lawful.2 _ rfl)
    refine ⟨after, ?_, rest⟩
    rw [Runs.run, ran, Option.bind_some, ran']

/-- After every history of creations, exits and reapings the hash lists are rings of the processes
that belong there; `find_proc` ends, and finds a process exactly when there is one with this pid. -/
theorem find_proc_finds {events : List Event} (lawful : Along (Tree.next initproc) (Tree.Lawful initproc) seed (.fork idleproc initproc :: events)) :
    ∃ after, run (FamilyLinks.step initproc) boot (.fork idleproc initproc :: events) = some after ∧
      (∃ chains, Hashed after chains) ∧
      ∀ pid, ∃ found, findProc after pid = some found ∧ ∀ proc, found = some proc ↔ Listed after proc ∧ (after.procs proc).pid = pid := by
  obtain ⟨between, ran, kept, -⟩ := boot_kept.fork lawful.1
  obtain ⟨chains, hashed⟩ := boot_hashed.step boot_kept lawful.1 ran kept
  obtain ⟨after, ran', kept', chains', hashed'⟩ := hashed.run kept (seed_init initproc) (lawful.2 _ rfl)
  refine ⟨after, ?_, ⟨chains', hashed'⟩, hashed'.find fun index => hashed'.few kept' index⟩
  rw [Runs.run, ran, Option.bind_some, ran']

/-- The process with pid 2 comes and goes. -/
theorem find_proc_finds_reaped : ∃ after, run (FamilyLinks.step 1) boot [.fork idleproc 1, .fork 1 2, .exit 2, .reap 2] = some after ∧
    (∃ chains, Hashed after chains) ∧
    ∀ pid, ∃ found, findProc after pid = some found ∧ ∀ proc, found = some proc ↔ Listed after proc ∧ (after.procs proc).pid = pid := by
  apply find_proc_finds
  decide

end Ucore.FamilyLinks
