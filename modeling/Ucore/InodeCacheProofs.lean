import Ucore.InodeCache

/-! Every inode in memory has the references that processes have to it, and its
reclaim count is right, whatever the order of the steps. Inside of the lock there
is one process, and only there an inode comes and goes. -/
namespace Ucore.InodeCache
open Semaphores

variable {π : Type} [DecidableEq π] {sfs after : Sfs π} {sem : State Unit π} {phases : π → Phase} {owners : Set π}
  {p q : π} {ptr ino : Nat} {sin : Sin}

/-! ## The lock -/

/-- Between `lock_sfs_fs` and `unlock_sfs_fs`. -/
def Phase.Inside : Phase → Prop
  | .reads _ | .truncates _ | .syncs _ => True
  | _ => False

def Phase.Waits : Phase → Prop
  | .loads _ | .reclaims _ => True
  | _ => False

/-- Who has the lock, and who may be in the queue for it. -/
structure Lock (sem : State Unit π) (phases : π → Phase) (owners : Set π) : Prop where
  sound : Sound sem
  single : Single sem Set.univ owners
  queue : ∀ q, sem.place q ≠ .free → (phases q).Waits
  inside : ∀ q, (phases q).Inside → q ∈ owners

/-- No process is in the middle of a step. -/
def Rests (sem : State Unit π) (phases : π → Phase) : Prop := Lock sem phases {q | (phases q).Inside}

omit [DecidableEq π] in
theorem Lock.others (lock : Lock sem phases {p}) (apart : q ≠ p) : ¬ (phases q).Inside := fun inside =>
  apart (Set.mem_singleton_iff.mp (lock.inside q inside))

omit [DecidableEq π] in
theorem Rests.free (rests : Rests sem phases) (out : phases p = .out) : sem.place p = .free := by
  by_contra waits
  have waits := rests.queue p waits
  rw [out] at waits
  exact waits

omit [DecidableEq π] in
theorem Lock.free (lock : Lock sem phases {p}) : sem.place p = .free := by
  obtain ⟨waits, granted⟩ := lock.single.holding p rfl () trivial
  cases place : sem.place p with
  | free => rfl
  | waiting _ => exact absurd place waits
  | granted _ => exact absurd place granted

/-- The lock is free, and the process gets it. -/
theorem Rests.taken (rests : Rests sem phases) (out : phases p = .out) (waits : Phase) (positive : 0 < sem.value ()) (calls : waits.Waits) :
    Lock (down sem p ()) (Function.update phases p waits) {p} := by
  have free := rests.free out
  have nobody (q : π) : ¬ (phases q).Inside := fun inside => rests.single.free () trivial positive q (.inl inside)
  have empty : {q | (phases q).Inside} = (∅ : Set π) := Set.eq_empty_of_forall_notMem nobody
  have single := rests.single
  rw [empty] at single
  refine ⟨rests.sound.down free (), ?_, fun q place => ?_, fun q inside => ?_⟩
  · rw [down, if_pos positive, ← insert_empty_eq]
    exact single.take trivial positive free
  · by_cases same : q = p
    · rw [same, Function.update_self]
      exact calls
    · rw [Function.update_of_ne same]
      apply rests.queue q
      rwa [down, if_pos positive] at place
  · by_cases same : q = p
    · exact same
    · rw [Function.update_of_ne same] at inside
      exact absurd inside (nobody q)

/-- The lock is taken, and the process waits. -/
theorem Rests.waits (rests : Rests sem phases) (out : phases p = .out) {waits : Phase} (calls : waits.Waits) (zero : ¬ 0 < sem.value ()) :
    Rests (down sem p ()) (Function.update phases p waits) := by
  have free := rests.free out
  have outside : ¬ waits.Inside := by
    cases waits <;> first | exact id | exact absurd calls id
  have same : {q | (Function.update phases p waits q).Inside} = {q | (phases q).Inside} := by
    ext q
    by_cases here : q = p
    · rw [Set.mem_ofPred_eq, Set.mem_ofPred_eq, here, Function.update_self, out]
      exact iff_of_false outside id
    · rw [Set.mem_ofPred_eq, Set.mem_ofPred_eq, Function.update_of_ne here]
  refine ⟨rests.sound.down free (), ?_, fun q place => ?_, fun q inside => inside⟩
  · rw [same, down, if_neg zero]
    apply rests.single.wait free
    intro _ inside
    rw [Set.mem_ofPred_eq, out] at inside
    exact inside
  · by_cases here : q = p
    · rw [here, Function.update_self]
      exact calls
    · rw [Function.update_of_ne here]
      apply rests.queue q
      rw [down, if_neg zero] at place
      simpa [wait, here] using place

theorem Rests.resumed (rests : Rests sem phases) (granted : sem.place p = .granted ()) : Lock (resume sem p) phases {p} := by
  have alone (q : π) (inside : (phases q).Inside) : q = p := rests.single.owner q p (.inl inside) (.inr ⟨(), trivial, granted⟩)
  have nobody (q : π) : ¬ (phases q).Inside := by
    intro inside
    obtain rfl := alone q inside
    exact (rests.single.holding q inside () trivial).2 granted
  have empty : {q | (phases q).Inside} = (∅ : Set π) := Set.eq_empty_of_forall_notMem nobody
  have single := rests.single
  rw [empty] at single
  refine ⟨rests.sound.resume granted, ?_, fun q place => rests.queue q fun free => place ?_, fun q inside => absurd inside (nobody q)⟩
  · rw [← insert_empty_eq]
    exact single.resume trivial granted
  · by_cases here : q = p
    · rw [here] at free
      rw [free] at granted
      cases granted
    · simpa [resume, here] using free

omit [DecidableEq π] in
/-- A process that is back from the disk. -/
theorem Rests.back (rests : Rests sem phases) (inside : (phases p).Inside) : Lock sem phases {p} := by
  have same : {q | (phases q).Inside} = ({p} : Set π) := by
    ext q
    rw [Set.mem_singleton_iff]
    constructor
    · exact fun other => rests.single.owner q p (.inl other) (.inl inside)
    · rintro rfl
      exact inside
  unfold Rests at rests
  rwa [same] at rests

/-- The process goes to the disk. -/
theorem Lock.stays (lock : Lock sem phases {p}) {phase : Phase} (inside : phase.Inside) :
    Rests sem (Function.update phases p phase) := by
  have same : {q | (Function.update phases p phase q).Inside} = ({p} : Set π) := by
    ext q
    by_cases here : q = p
    · rw [Set.mem_ofPred_eq, here, Function.update_self]
      exact iff_of_true inside rfl
    · rw [Set.mem_ofPred_eq, Function.update_of_ne here]
      exact iff_of_false (lock.others here) here
  unfold Rests
  rw [same]
  refine ⟨lock.sound, lock.single, fun q place => ?_, fun q inside => ?_⟩
  · by_cases here : q = p
    · rw [here] at place
      exact absurd lock.free place
    · rw [Function.update_of_ne here]
      exact lock.queue q place
  · by_cases here : q = p
    · exact here
    · rw [Function.update_of_ne here] at inside
      exact absurd inside (lock.others here)

/-- The process gives the lock to the next one. -/
theorem Lock.unlocked (lock : Lock sem phases {p}) : Rests (up sem ()) (Function.update phases p .out) := by
  have nobody (q : π) : ¬ (Function.update phases p .out q).Inside := by
    by_cases here : q = p
    · rw [here, Function.update_self]
      exact id
    · rw [Function.update_of_ne here]
      exact lock.others here
  have empty : {q | (Function.update phases p .out q).Inside} = ({p} : Set π) \ {p} := by
    rw [Set.sdiff_self]
    exact Set.eq_empty_of_forall_notMem nobody
  have place (q : π) (busy : (up sem ()).place q ≠ .free) : sem.place q ≠ .free := by
    unfold up at busy
    split at busy
    · exact busy
    · rename_i first rest waits
      by_cases head : q = first
      · rw [head, (lock.sound.queued () first).mp (by simp [waits])]
        nofun
      · simpa [grant, head] using busy
  refine ⟨lock.sound.up (), ?_, fun q busy => ?_, fun q inside => inside⟩
  · rw [empty]
    exact lock.single.up rfl trivial
  · have busy := place q busy
    by_cases here : q = p
    · rw [here] at busy
      exact absurd lock.free busy
    · rw [Function.update_of_ne here]
      exact lock.queue q busy

/-! ## The counts -/

variable [Fintype π]

/-- The references to an address that processes have. -/
def references (sfs : Sfs π) (ptr : Nat) : Nat := ∑ q, sfs.held q ptr

def mark (phase : Phase) (ptr : Nat) : Nat := if phase = .reclaims ptr then 1 else 0

/-- The calls of `sfs_reclaim` that have not got the lock. -/
def pending (sfs : Sfs π) (ptr : Nat) : Nat := ∑ q, mark (sfs.phase q) ptr

theorem sum_update {α : Type} (f : π → α) (weight : α → Nat) (p : π) (value : α) :
    ∑ q, weight (Function.update f p value q) + weight (f p) = ∑ q, weight (f q) + weight value := by
  rw [Fintype.sum_eq_add_sum_compl p, Fintype.sum_eq_add_sum_compl p fun q => weight (f q), Function.update_self]
  have others : ∑ q ∈ {p}ᶜ, weight (Function.update f p value q) = ∑ q ∈ {p}ᶜ, weight (f q) := by
    apply Finset.sum_congr rfl
    intro q apart
    rw [Function.update_of_ne (by simpa using apart)]
  omega

theorem references_hold (sfs : Sfs π) (p : π) (ptr n : Nat) :
    references (sfs.hold p ptr n) ptr + sfs.held p ptr = references sfs ptr + n := by
  have sums := sum_update sfs.held (fun refs => refs ptr) p (Function.update (sfs.held p) ptr n)
  rw [Function.update_self] at sums
  exact sums

theorem references_hold_other {other : Nat} (apart : other ≠ ptr) (sfs : Sfs π) (p : π) (n : Nat) :
    references (sfs.hold p ptr n) other = references sfs other := by
  have sums := sum_update sfs.held (fun refs => refs other) p (Function.update (sfs.held p) ptr n)
  rw [Function.update_of_ne apart] at sums
  exact Nat.add_right_cancel sums

theorem pending_goTo (sfs : Sfs π) (p : π) (phase : Phase) (ptr : Nat) :
    pending (sfs.goTo p phase) ptr + mark (sfs.phase p) ptr = pending sfs ptr + mark phase ptr :=
  sum_update sfs.phase (fun phase => mark phase ptr) p phase

/-- An address has an inode with the right counts, or nobody knows it. -/
def Entry (sfs : Sfs π) (ptr : Nat) : Prop :=
  match sfs.mem ptr with
  | none => ptr ∉ sfs.inodeList ∧ references sfs ptr = 0 ∧ pending sfs ptr = 0
  | some sin => ptr ∈ sfs.inodeList ∧ sin.refCount = references sfs ptr ∧
    sin.reclaimCount = pending sfs ptr + if 0 < sin.refCount then 1 else 0

structure Kept (sfs : Sfs π) : Prop where
  distinct : sfs.inodeList.Nodup
  unique : ∀ ptr other sin sin', sfs.mem ptr = some sin → sfs.mem other = some sin' → sin.ino = sin'.ino → ptr = other
  entries : ∀ ptr, Entry sfs ptr

omit [DecidableEq π] in
theorem Entry.of_some (found : sfs.mem ptr = some sin) (counts : ptr ∈ sfs.inodeList ∧ sin.refCount = references sfs ptr ∧
    sin.reclaimCount = pending sfs ptr + if 0 < sin.refCount then 1 else 0) : Entry sfs ptr := by
  rw [Entry, found]
  exact counts

omit [DecidableEq π] in
theorem Entry.congr (entry : Entry sfs ptr) (mem : after.mem ptr = sfs.mem ptr) (list : ptr ∈ after.inodeList ↔ ptr ∈ sfs.inodeList)
    (refs : references after ptr = references sfs ptr) (calls : pending after ptr = pending sfs ptr) : Entry after ptr := by
  rw [Entry, mem, list, refs, calls]
  exact entry

omit [DecidableEq π] in
theorem Kept.found (kept : Kept sfs) (found : sfs.mem ptr = some sin) : ptr ∈ sfs.inodeList ∧ sin.refCount = references sfs ptr ∧
    sin.reclaimCount = pending sfs ptr + if 0 < sin.refCount then 1 else 0 := by
  have entry := kept.entries ptr
  rw [Entry, found] at entry
  exact entry

omit [DecidableEq π] in
theorem Kept.missing (kept : Kept sfs) (missing : sfs.mem ptr = none) : ptr ∉ sfs.inodeList ∧ references sfs ptr = 0 ∧ pending sfs ptr = 0 := by
  have entry := kept.entries ptr
  rw [Entry, missing] at entry
  exact entry

omit [DecidableEq π] in
/-- The inode at one address changes, but for its number. -/
theorem Kept.update {sin' : Sin} (kept : Kept sfs) (found : sfs.mem ptr = some sin) (mem : after.mem = Function.update sfs.mem ptr (some sin'))
    (list : after.inodeList = sfs.inodeList) (ino : sin'.ino = sin.ino)
    (others : ∀ other, other ≠ ptr → references after other = references sfs other ∧ pending after other = pending sfs other)
    (refs : sin'.refCount = references after ptr) (reclaims : sin'.reclaimCount = pending after ptr + if 0 < sin'.refCount then 1 else 0) :
    Kept after := by
  have at_ino {other : Nat} {node : Sin} (there : after.mem other = some node) : ∃ old, sfs.mem other = some old ∧ old.ino = node.ino := by
    rw [mem] at there
    by_cases same : other = ptr
    · subst same
      rw [Function.update_self] at there
      cases there
      exact ⟨sin, found, ino.symm⟩
    · rw [Function.update_of_ne same] at there
      exact ⟨node, there, rfl⟩
  refine ⟨?_, fun one other node node' there there' same => ?_, fun other => ?_⟩
  · rw [list]
    exact kept.distinct
  · obtain ⟨old, there, ino⟩ := at_ino there
    obtain ⟨old', there', ino'⟩ := at_ino there'
    exact kept.unique one other old old' there there' (ino.trans (same.trans ino'.symm))
  · by_cases same : other = ptr
    · subst same
      refine .of_some (by rw [mem, Function.update_self]) ⟨?_, refs, reclaims⟩
      rw [list]
      exact (kept.found found).1
    · apply (kept.entries other).congr _ (by rw [list]) (others other same).1 (others other same).2
      rw [mem, Function.update_of_ne same]

omit [DecidableEq π] in
/-- Nothing of it depends on the semaphore, and only calls that wait to reclaim depend on where processes are. -/
theorem Kept.congr (kept : Kept sfs) (mem : after.mem = sfs.mem) (list : after.inodeList = sfs.inodeList) (held : after.held = sfs.held)
    (calls : ∀ ptr, pending after ptr = pending sfs ptr) : Kept after := by
  refine ⟨?_, ?_, fun ptr => ?_⟩
  · rw [list]
    exact kept.distinct
  · rw [mem]
    exact kept.unique
  · apply (kept.entries ptr).congr (by rw [mem]) (by rw [list]) _ (calls ptr)
    rw [references, held, references]

theorem mark_of_ne {phase : Phase} (other : phase ≠ .reclaims ptr) : mark phase ptr = 0 := if_neg other

theorem Kept.goTo (kept : Kept sfs) {phase : Phase} (before : ∀ ptr, sfs.phase p ≠ .reclaims ptr) (behind : ∀ ptr, phase ≠ .reclaims ptr) :
    Kept (sfs.goTo p phase) := by
  refine kept.congr rfl rfl rfl fun ptr => ?_
  have sums := pending_goTo sfs p phase ptr
  rwa [mark_of_ne (before ptr), mark_of_ne (behind ptr)] at sums

/-- One reference more. -/
theorem Kept.ref (kept : Kept sfs) (found : sfs.mem ptr = some sin) : Kept ((sfs.put ptr (some (refNolock sin))).hold p ptr (sfs.held p ptr + 1)) := by
  obtain ⟨-, refs, reclaims⟩ := kept.found found
  have sums := references_hold (sfs.put ptr (some (refNolock sin))) p ptr (sfs.held p ptr + 1)
  have more : references ((sfs.put ptr (some (refNolock sin))).hold p ptr (sfs.held p ptr + 1)) ptr = references sfs ptr + 1 := by
    change _ + sfs.held p ptr = references sfs ptr + _ at sums
    omega
  refine kept.update found rfl rfl rfl (fun other apart => ⟨references_hold_other apart _ _ _, rfl⟩) ?_ ?_
  · rw [more, ← refs]
    rfl
  · change (if sin.refCount + 1 = 1 then sin.reclaimCount + 1 else sin.reclaimCount) = pending sfs ptr + if 0 < sin.refCount + 1 then 1 else 0
    rw [reclaims, if_pos (Nat.succ_pos _)]
    split <;> split <;> omega

/-- A process without one of its references. -/
def dropped (sfs : Sfs π) (p : π) (ptr : Nat) (sin : Sin) : Sfs π :=
  (sfs.put ptr (some { sin with refCount := sin.refCount - 1 })).hold p ptr (sfs.held p ptr - 1)

theorem references_dropped (held : 0 < sfs.held p ptr) : references (dropped sfs p ptr sin) ptr + 1 = references sfs ptr := by
  have sums : references (dropped sfs p ptr sin) ptr + sfs.held p ptr = references sfs ptr + (sfs.held p ptr - 1) := references_hold _ _ _ _
  omega

/-- One reference less. -/
theorem Kept.drop (kept : Kept sfs) (found : sfs.mem ptr = some sin) (held : 0 < sfs.held p ptr) (more : sin.refCount - 1 ≠ 0) :
    Kept (dropped sfs p ptr sin) := by
  obtain ⟨-, refs, reclaims⟩ := kept.found found
  have one : references (dropped sfs p ptr sin) ptr + 1 = references sfs ptr := references_dropped held
  refine kept.update found rfl rfl rfl (fun other apart => ⟨references_hold_other apart _ _ _, rfl⟩) ?_ ?_
  · change sin.refCount - 1 = references (dropped sfs p ptr sin) ptr
    omega
  · change sin.reclaimCount = pending sfs ptr + if 0 < sin.refCount - 1 then 1 else 0
    rw [reclaims, if_pos (by omega), if_pos (by omega)]

/-- With the last reference a call of `sfs_reclaim` begins. -/
theorem Kept.drop_last (kept : Kept sfs) (found : sfs.mem ptr = some sin) (held : 0 < sfs.held p ptr) (out : sfs.phase p = .out)
    (last : sin.refCount - 1 = 0) : Kept ((dropped sfs p ptr sin).goTo p (.reclaims ptr)) := by
  obtain ⟨-, refs, reclaims⟩ := kept.found found
  have one : references (dropped sfs p ptr sin) ptr + 1 = references sfs ptr := references_dropped held
  have calls (other : Nat) : pending ((dropped sfs p ptr sin).goTo p (.reclaims ptr)) other = pending sfs other + mark (.reclaims ptr) other := by
    have moved := pending_goTo (dropped sfs p ptr sin) p (.reclaims ptr) other
    change _ + mark (sfs.phase p) other = pending sfs other + _ at moved
    rwa [out, mark_of_ne (nofun : Phase.out ≠ .reclaims other)] at moved
  have here : mark (.reclaims ptr) ptr = 1 := if_pos rfl
  refine kept.update found rfl rfl rfl (fun other apart => ⟨references_hold_other apart _ _ _, ?_⟩) ?_ ?_
  · rw [calls, mark_of_ne fun same => apart (Phase.reclaims.inj same).symm, Nat.add_zero]
  · change sin.refCount - 1 = references (dropped sfs p ptr sin) ptr
    omega
  · change sin.reclaimCount = _ + if 0 < sin.refCount - 1 then 1 else 0
    rw [calls, here, reclaims, last, if_pos (by omega)]
    rfl

/-- A call that has got the lock is counted no more. -/
theorem Kept.reclaim (kept : Kept sfs) (found : sfs.mem ptr = some sin) (calls : sfs.phase p = .reclaims ptr) {phase : Phase}
    (behind : ∀ ptr, phase ≠ .reclaims ptr) :
    0 < sin.reclaimCount ∧ Kept ((sfs.put ptr (some { sin with reclaimCount := sin.reclaimCount - 1 })).goTo p phase) := by
  obtain ⟨-, refs, reclaims⟩ := kept.found found
  let less := sfs.put ptr (some { sin with reclaimCount := sin.reclaimCount - 1 })
  have moved (other : Nat) : pending (less.goTo p phase) other + mark (.reclaims ptr) other = pending sfs other := by
    have moved := pending_goTo less p phase other
    change _ + mark (sfs.phase p) other = pending sfs other + _ at moved
    rwa [calls, mark_of_ne (behind other)] at moved
  have here : mark (.reclaims ptr) ptr = 1 := if_pos rfl
  have one := moved ptr
  rw [here] at one
  refine ⟨by omega, kept.update found rfl rfl rfl (fun other apart => ⟨rfl, ?_⟩) refs ?_⟩
  · have same := moved other
    rwa [mark_of_ne fun same => apart (Phase.reclaims.inj same).symm] at same
  · change sin.reclaimCount - 1 = pending (less.goTo p phase) ptr + if 0 < sin.refCount then 1 else 0
    omega

omit [DecidableEq π] in
/-- An inode that changes but for its counts. -/
theorem Kept.change (kept : Kept sfs) (found : sfs.mem ptr = some sin) (nlinks : Nat) (dirty : Bool) :
    Kept (sfs.put ptr (some { sin with nlinks := nlinks, dirty := dirty })) := by
  obtain ⟨-, refs, reclaims⟩ := kept.found found
  exact kept.update found rfl rfl rfl (fun _ _ => ⟨rfl, rfl⟩) refs reclaims

omit [DecidableEq π] in
/-- An inode that nobody has is freed. -/
theorem Kept.free (kept : Kept sfs) (found : sfs.mem ptr = some sin) (unused : sin.refCount = 0) (no_calls : sin.reclaimCount = 0) :
    Kept ({ sfs with inodeList := sfs.inodeList.erase ptr }.put ptr none) := by
  obtain ⟨-, refs, reclaims⟩ := kept.found found
  have still {other : Nat} {node : Sin} (there : Function.update sfs.mem ptr none other = some node) : sfs.mem other = some node := by
    by_cases same : other = ptr
    · rw [same, Function.update_self] at there
      cases there
    · rwa [Function.update_of_ne same] at there
  refine ⟨kept.distinct.erase ptr, fun one other node node' there there' => kept.unique one other node node' (still there) (still there'), fun other => ?_⟩
  by_cases same : other = ptr
  · subst same
    have nothing : ({ sfs with inodeList := sfs.inodeList.erase other }.put other none).mem other = none := Function.update_self _ _ _
    rw [Entry, nothing]
    exact ⟨fun member => absurd rfl (kept.distinct.mem_erase_iff.mp member).1, refs.symm.trans unused, by
      change pending sfs other = 0
      omega⟩
  · exact (kept.entries other).congr (Function.update_of_ne same _ _) (List.mem_erase_of_ne same) rfl rfl

/-- A new inode with its first reference. -/
theorem Kept.create (kept : Kept sfs) (missing : sfs.mem ptr = none) (fresh : ∀ other node, sfs.mem other = some node → node.ino ≠ ino)
    (nlinks : Nat) : Kept (Sfs.hold { sfs.put ptr (some ⟨ino, 1, 1, nlinks, false⟩) with inodeList := ptr :: sfs.inodeList } p ptr (sfs.held p ptr + 1)) := by
  obtain ⟨outside, refs, calls⟩ := kept.missing missing
  have sums := references_hold { sfs.put ptr (some ⟨ino, 1, 1, nlinks, false⟩) with inodeList := ptr :: sfs.inodeList } p ptr (sfs.held p ptr + 1)
  change _ + sfs.held p ptr = references sfs ptr + _ at sums
  have old {other : Nat} {node : Sin} (apart : other ≠ ptr) (there : Function.update sfs.mem ptr (some ⟨ino, 1, 1, nlinks, false⟩) other = some node) :
      sfs.mem other = some node := by rwa [Function.update_of_ne apart] at there
  have new {node : Sin} (there : Function.update sfs.mem ptr (some ⟨ino, 1, 1, nlinks, false⟩) ptr = some node) : node.ino = ino := by
    rw [Function.update_self] at there
    cases there
    rfl
  refine ⟨List.nodup_cons.mpr ⟨outside, kept.distinct⟩, fun one other node node' there there' same => ?_, fun other => ?_⟩
  · by_cases first : one = ptr <;> by_cases second : other = ptr
    · rw [first, second]
    · subst first
      exact absurd ((new there).symm.trans same).symm (fresh other node' (old second there'))
    · subst second
      exact absurd (same.trans (new there')) (fresh one node (old first there))
    · exact kept.unique one other node node' (old first there) (old second there') same
  · by_cases same : other = ptr
    · subst same
      refine .of_some (Function.update_self _ _ _) ⟨List.mem_cons_self, ?_, ?_⟩
      · change 1 = _
        omega
      · change 1 = pending sfs other + 1
        omega
    · exact (kept.entries other).congr (Function.update_of_ne same _ _) (by simp [Sfs.hold, same]) (references_hold_other same _ _ _) rfl

theorem refNolock_of_pos (used : 0 < sin.refCount) : refNolock sin = { sin with refCount := sin.refCount + 1 } := by
  rw [refNolock, if_neg]
  omega

/-! ## Between the steps -/

/-- What a process at the disk relies on: nobody has loaded its inode meanwhile, or has come back to the
one that it reclaims. -/
def AtDisk (mem : Nat → Option Sin) : Phase → Prop
  | .reads ino => ∀ ptr sin, mem ptr = some sin → sin.ino ≠ ino
  | .truncates ptr | .syncs ptr => ∃ sin, mem ptr = some sin ∧ sin.refCount = 0 ∧ sin.reclaimCount = 0
  | _ => True

structure Steady (sfs : Sfs π) : Prop where
  rests : Rests sfs.fsSem sfs.phase
  kept : Kept sfs
  disk : ∀ q, AtDisk sfs.mem (sfs.phase q)

theorem AtDisk.outside {mem : Nat → Option Sin} {phase : Phase} (outside : ¬ phase.Inside) : AtDisk mem phase := by
  cases phase <;> first | trivial | exact absurd trivial outside

omit [Fintype π] in
@[simp] theorem goTo_goTo (sfs : Sfs π) (p : π) (first second : Phase) : (sfs.goTo p first).goTo p second = sfs.goTo p second := by
  simp only [Sfs.goTo, Function.update_idem]

theorem Kept.goTo_of_out (kept : Kept (sfs.goTo p .out)) {phase : Phase} (behind : ∀ ptr, phase ≠ .reclaims ptr) : Kept (sfs.goTo p phase) := by
  have there : (sfs.goTo p .out).phase p = .out := Function.update_self _ _ _
  rw [← goTo_goTo sfs p .out phase]
  exact kept.goTo (by rw [there]; nofun) behind

/-- The process that has the lock leaves it. -/
theorem Lock.leave (lock : Lock sfs.fsSem sfs.phase {p}) (kept : Kept (sfs.goTo p .out)) : Steady (unlockSfsFs sfs p) := by
  refine ⟨lock.unlocked, kept.congr rfl rfl rfl fun _ => rfl, fun q => ?_⟩
  by_cases here : q = p
  · have out : (unlockSfsFs sfs p).phase q = .out := by
      rw [here]
      exact Function.update_self _ _ _
    rw [out]
    trivial
  · have same : (unlockSfsFs sfs p).phase q = sfs.phase q := Function.update_of_ne here _ _
    rw [same]
    exact .outside (lock.others here)

/-- It goes to the disk. -/
theorem Lock.toDisk (lock : Lock sfs.fsSem sfs.phase {p}) (kept : Kept (sfs.goTo p .out)) {phase : Phase} (inside : phase.Inside)
    (disk : AtDisk sfs.mem phase) : Steady (sfs.goTo p phase) := by
  refine ⟨lock.stays inside, kept.goTo_of_out ?_, fun q => ?_⟩
  · rintro ptr rfl
    exact inside
  · by_cases here : q = p
    · have there : (sfs.goTo p phase).phase q = phase := by
        rw [here]
        exact Function.update_self _ _ _
      rw [there]
      exact disk
    · have same : (sfs.goTo p phase).phase q = sfs.phase q := Function.update_of_ne here _ _
      rw [same]
      exact .outside (lock.others here)

/-! ## Loading -/

omit [DecidableEq π] [Fintype π] in
theorem findInode_some (found : findInode sfs ino = some ptr) : ∃ sin, sfs.mem ptr = some sin := by
  have holds := List.find?_some found
  cases at_ptr : sfs.mem ptr with
  | none =>
    rw [at_ptr] at holds
    cases holds
  | some sin => exact ⟨sin, rfl⟩

omit [DecidableEq π] in
theorem findInode_none (kept : Kept sfs) (missing : findInode sfs ino = none) (found : sfs.mem ptr = some sin) : sin.ino ≠ ino := by
  intro same
  have fails := List.find?_eq_none.mp missing ptr (kept.found found).1
  rw [found] at fails
  exact fails (decide_eq_true same)

theorem guard_of {condition : Prop} [Decidable condition] (holds : condition) : (guard condition : Option Unit) = some () := if_pos holds

theorem loadLocked_steady (lock : Lock sfs.fsSem sfs.phase {p}) (kept : Kept sfs) (calls : sfs.phase p = .loads ino) (memory : Bool) :
    ∃ after, loadLocked sfs p ino memory = some after ∧ Steady after := by
  have no_reclaim : ∀ ptr, sfs.phase p ≠ .reclaims ptr := by
    rw [calls]
    nofun
  unfold loadLocked
  cases found : findInode sfs ino with
  | some ptr =>
    obtain ⟨sin, at_ptr⟩ := findInode_some found
    dsimp only
    rw [at_ptr]
    exact ⟨_, rfl, Lock.leave lock ((kept.ref at_ptr).goTo no_reclaim nofun)⟩
  | none =>
    have out : Kept (sfs.goTo p .out) := kept.goTo no_reclaim nofun
    cases memory with
    | true => exact ⟨_, rfl, lock.toDisk out trivial fun _ _ => findInode_none kept found⟩
    | false => exact ⟨_, rfl, lock.leave out⟩

theorem loadRead_steady (steady : Steady sfs) (calls : sfs.phase p = .reads ino) (answer : Option (Nat × Nat))
    (possible : ∀ nlinks ptr, answer = some (nlinks, ptr) → nlinks ≠ 0 ∧ sfs.mem ptr = none) :
    ∃ after, loadRead sfs p ino answer = some after ∧ Steady after := by
  have lock : Lock sfs.fsSem sfs.phase {p} := steady.rests.back (by rw [calls]; trivial)
  have no_reclaim : ∀ ptr, sfs.phase p ≠ .reclaims ptr := by
    rw [calls]
    nofun
  cases answer with
  | none => exact ⟨_, rfl, lock.leave (steady.kept.goTo no_reclaim nofun)⟩
  | some got =>
    obtain ⟨nlinks, ptr⟩ := got
    obtain ⟨links, missing⟩ := possible nlinks ptr rfl
    have fresh := steady.disk p
    rw [calls] at fresh
    unfold loadRead
    dsimp only
    rw [guard_of links]
    exact ⟨_, rfl, Lock.leave lock ((steady.kept.create missing fresh nlinks).goTo no_reclaim nofun)⟩

/-! ## Reclaiming -/

omit [DecidableEq π] in
/-- A process that waits to reclaim an inode finds it. -/
theorem Kept.called (kept : Kept sfs) (calls : sfs.phase p = .reclaims ptr) : ∃ sin, sfs.mem ptr = some sin := by
  cases found : sfs.mem ptr with
  | some sin => exact ⟨sin, rfl⟩
  | none =>
    have counted : mark (sfs.phase p) ptr ≤ pending sfs ptr :=
      Finset.single_le_sum (f := fun q => mark (sfs.phase q) ptr) (fun _ _ => Nat.zero_le _) (Finset.mem_univ p)
    rw [calls, mark, if_pos rfl, (kept.missing found).2.2] at counted
    cases counted

theorem reclaimFree_steady (lock : Lock sfs.fsSem sfs.phase {p}) (kept : Kept (sfs.goTo p .out)) (found : sfs.mem ptr = some sin)
    (unused : sin.refCount = 0) (no_calls : sin.reclaimCount = 0) : ∃ after, reclaimFree sfs p ptr = some after ∧ Steady after := by
  unfold reclaimFree
  rw [found]
  dsimp only [Option.bind_eq_bind, Option.bind_some]
  rw [guard_of unused]
  refine ⟨_, rfl, lock.unlocked, (kept.free found unused no_calls).congr rfl rfl rfl fun _ => rfl, fun q => .outside fun inside => ?_⟩
  by_cases here : q = p
  · have out : (unlockSfsFs { sfs with inodeList := sfs.inodeList.erase ptr } p).phase q = .out := by
      rw [here]
      exact Function.update_self _ _ _
    change ((unlockSfsFs { sfs with inodeList := sfs.inodeList.erase ptr } p).phase q).Inside at inside
    rw [out] at inside
    exact inside
  · have same : (unlockSfsFs { sfs with inodeList := sfs.inodeList.erase ptr } p).phase q = sfs.phase q := Function.update_of_ne here _ _
    change ((unlockSfsFs { sfs with inodeList := sfs.inodeList.erase ptr } p).phase q).Inside at inside
    rw [same] at inside
    exact lock.others here inside

theorem reclaimSync_steady (lock : Lock sfs.fsSem sfs.phase {p}) (kept : Kept (sfs.goTo p .out)) (found : sfs.mem ptr = some sin)
    (unused : sin.refCount = 0) (no_calls : sin.reclaimCount = 0) : ∃ after, reclaimSync sfs p ptr = some after ∧ Steady after := by
  unfold reclaimSync
  rw [found]
  dsimp only [Option.bind_eq_bind, Option.bind_some]
  split
  · exact ⟨_, rfl, lock.toDisk kept trivial ⟨sin, found, unused, no_calls⟩⟩
  · exact reclaimFree_steady lock kept found unused no_calls

theorem reclaimLocked_steady (lock : Lock sfs.fsSem sfs.phase {p}) (kept : Kept sfs) (calls : sfs.phase p = .reclaims ptr) :
    ∃ after, reclaimLocked sfs p ptr = some after ∧ Steady after := by
  obtain ⟨sin, found⟩ := kept.called calls
  let less : Sfs π := sfs.put ptr (some { sin with reclaimCount := sin.reclaimCount - 1 })
  obtain ⟨positive, kept'⟩ : 0 < sin.reclaimCount ∧ Kept (less.goTo p .out) := kept.reclaim found calls nofun
  have lock' : Lock less.fsSem less.phase {p} := lock
  have here : less.mem ptr = some { sin with reclaimCount := sin.reclaimCount - 1 } := Function.update_self _ _ _
  unfold reclaimLocked
  rw [found]
  dsimp only [Option.bind_eq_bind, Option.bind_some]
  rw [guard_of positive]
  dsimp only [Option.bind_some]
  split
  · exact ⟨_, rfl, lock'.leave kept'⟩
  · rename_i last
    simp only [Bool.or_eq_true, decide_eq_true_eq, not_or, not_not] at last
    split
    · exact ⟨_, rfl, lock'.toDisk kept' trivial ⟨_, here, last.2, last.1⟩⟩
    · exact reclaimSync_steady lock' kept' here last.2 last.1

theorem reclaimTruncated_steady (steady : Steady sfs) (calls : sfs.phase p = .truncates ptr) (ok dirty : Bool) :
    ∃ after, reclaimTruncated sfs p ptr ok dirty = some after ∧ Steady after := by
  have lock : Lock sfs.fsSem sfs.phase {p} := steady.rests.back (by rw [calls]; trivial)
  have disk := steady.disk p
  rw [calls] at disk
  obtain ⟨sin, found, unused, no_calls⟩ := disk
  let changed : Sfs π := sfs.put ptr (some { sin with dirty := dirty })
  have lock' : Lock changed.fsSem changed.phase {p} := lock
  have kept : Kept changed := steady.kept.change found sin.nlinks dirty
  have kept' : Kept (changed.goTo p .out) := kept.goTo (by change ∀ ptr, sfs.phase p ≠ _; rw [calls]; nofun) nofun
  unfold reclaimTruncated
  rw [found]
  dsimp only [Option.bind_eq_bind, Option.bind_some]
  split
  · exact reclaimSync_steady lock' kept' (Function.update_self _ _ _) unused no_calls
  · exact ⟨_, rfl, lock'.leave kept'⟩

theorem reclaimSynced_steady (steady : Steady sfs) (calls : sfs.phase p = .syncs ptr) (ok : Bool) :
    ∃ after, reclaimSynced sfs p ptr ok = some after ∧ Steady after := by
  have lock : Lock sfs.fsSem sfs.phase {p} := steady.rests.back (by rw [calls]; trivial)
  have disk := steady.disk p
  rw [calls] at disk
  obtain ⟨sin, found, unused, no_calls⟩ := disk
  have no_reclaim : ∀ ptr, sfs.phase p ≠ .reclaims ptr := by
    rw [calls]
    nofun
  let changed : Sfs π := sfs.put ptr (some { sin with dirty := false })
  have lock' : Lock changed.fsSem changed.phase {p} := lock
  have kept : Kept changed := steady.kept.change found sin.nlinks false
  unfold reclaimSynced
  rw [found]
  dsimp only [Option.bind_eq_bind, Option.bind_some]
  split
  · exact reclaimFree_steady lock' (kept.goTo no_reclaim nofun) (Function.update_self _ _ _) unused no_calls
  · exact ⟨_, rfl, lock.leave (steady.kept.goTo no_reclaim nofun)⟩

/-! ## Steps -/

/-- A call that begins at the lock. -/
theorem lockSfsFs_steady {waits : Phase} {critical : Sfs π → Option (Sfs π)} (rests : Rests sfs.fsSem sfs.phase) (out : sfs.phase p = .out)
    (calls : waits.Waits) (kept : Kept (sfs.goTo p waits)) (disk : ∀ q, AtDisk sfs.mem (sfs.phase q))
    (behind : ∀ locked : Sfs π, Lock locked.fsSem locked.phase {p} → Kept locked → locked.phase p = waits →
      ∃ after, critical locked = some after ∧ Steady after) :
    ∃ after, lockSfsFs sfs p waits critical = some after ∧ Steady after := by
  let queued : Sfs π := ({ sfs with fsSem := down sfs.fsSem p () } : Sfs π).goTo p waits
  have kept' : Kept queued := kept.congr rfl rfl rfl fun _ => rfl
  have there : queued.phase p = waits := Function.update_self _ _ _
  unfold lockSfsFs
  split
  · rename_i positive
    exact behind queued (rests.taken out waits positive calls) kept' there
  · rename_i zero
    refine ⟨queued, rfl, rests.waits out calls zero, kept', fun q => ?_⟩
    by_cases here : q = p
    · rw [here, there]
      cases waits <;> trivial
    · have same : queued.phase q = sfs.phase q := Function.update_of_ne here _ _
      rw [same]
      exact disk q

omit [DecidableEq π] in
theorem Kept.used (kept : Kept sfs) (held : 0 < sfs.held p ptr) : ∃ sin, sfs.mem ptr = some sin ∧ 0 < sin.refCount := by
  have counted : sfs.held p ptr ≤ references sfs ptr :=
    Finset.single_le_sum (f := fun q => sfs.held q ptr) (fun _ _ => Nat.zero_le _) (Finset.mem_univ p)
  cases found : sfs.mem ptr with
  | some sin =>
    refine ⟨sin, rfl, ?_⟩
    rw [(kept.found found).2.1]
    exact held.trans_le counted
  | none =>
    rw [(kept.missing found).2.1] at counted
    exact absurd held (Nat.not_lt_of_le counted)

omit [DecidableEq π] in
/-- Nobody at the disk relies on an inode with references. -/
theorem Steady.disk_put {sin' : Sin} (steady : Steady sfs) (found : sfs.mem ptr = some sin) (used : 0 < sin.refCount) (ino : sin'.ino = sin.ino)
    (q : π) : AtDisk (Function.update sfs.mem ptr (some sin')) (sfs.phase q) := by
  have disk := steady.disk q
  have dying {other : Nat} (disk : ∃ sin, sfs.mem other = some sin ∧ sin.refCount = 0 ∧ sin.reclaimCount = 0) :
      ∃ sin, Function.update sfs.mem ptr (some sin') other = some sin ∧ sin.refCount = 0 ∧ sin.reclaimCount = 0 := by
    obtain ⟨node, there, unused, no_calls⟩ := disk
    refine ⟨node, ?_, unused, no_calls⟩
    rw [Function.update_of_ne, there]
    rintro rfl
    cases found.symm.trans there
    omega
  cases phase : sfs.phase q with
  | reads other =>
    rw [phase] at disk
    intro place node there
    by_cases same : place = ptr
    · rw [same, Function.update_self] at there
      cases there
      rw [ino]
      exact disk ptr sin found
    · rw [Function.update_of_ne same] at there
      exact disk place node there
  | truncates other =>
    rw [phase] at disk
    exact dying disk
  | syncs other =>
    rw [phase] at disk
    exact dying disk
  | out | loads _ | reclaims _ => trivial

theorem inodeRefInc_steady (steady : Steady sfs) (receiver : π) (held : 0 < sfs.held p ptr) :
    ∃ after, inodeRefInc sfs receiver ptr = some after ∧ Steady after := by
  obtain ⟨sin, found, used⟩ := steady.kept.used held
  have more := steady.kept.ref (p := receiver) found
  rw [refNolock_of_pos used] at more
  unfold inodeRefInc
  rw [found]
  exact ⟨_, rfl, steady.rests, more, steady.disk_put found used rfl⟩

theorem inodeRefDec_steady (steady : Steady sfs) (out : sfs.phase p = .out) (held : 0 < sfs.held p ptr) :
    ∃ after, inodeRefDec sfs p ptr = some after ∧ Steady after := by
  obtain ⟨sin, found, used⟩ := steady.kept.used held
  have disk : ∀ q, AtDisk (dropped sfs p ptr sin).mem ((dropped sfs p ptr sin).phase q) := steady.disk_put found used rfl
  unfold inodeRefDec
  rw [found]
  dsimp only [Option.bind_eq_bind, Option.bind_some]
  rw [guard_of used]
  dsimp only [Option.bind_some]
  split
  · rename_i last
    have kept : Kept ((dropped sfs p ptr sin).goTo p (.reclaims ptr)) := steady.kept.drop_last found held out last
    exact lockSfsFs_steady steady.rests out trivial kept disk fun _ lock kept calls => reclaimLocked_steady lock kept calls
  · rename_i more
    exact ⟨_, rfl, steady.rests, steady.kept.drop found held more, disk⟩

theorem step_steady {event : Event π} (steady : Steady sfs) (possible : Possible sfs event) : ∃ after, step sfs event = some after ∧ Steady after := by
  cases event with
  | load p ino memory =>
    have kept : Kept (sfs.goTo p (.loads ino)) := steady.kept.goTo (by rw [show sfs.phase p = .out from possible]; nofun) nofun
    have waits : (Phase.loads ino).Waits := trivial
    exact lockSfsFs_steady steady.rests possible waits kept steady.disk fun _ lock kept calls => loadLocked_steady lock kept calls memory
  | resume p memory =>
    have granted : sfs.fsSem.place p = .granted () := possible
    have lock := steady.rests.resumed granted
    have kept : Kept { sfs with fsSem := resume sfs.fsSem p } := steady.kept.congr rfl rfl rfl fun _ => rfl
    have waits := steady.rests.queue p (by rw [granted]; nofun)
    unfold step
    cases phase : sfs.phase p with
    | loads ino =>
      dsimp only
      rw [phase]
      exact loadLocked_steady lock kept phase memory
    | reclaims ptr =>
      dsimp only
      rw [phase]
      exact reclaimLocked_steady lock kept phase
    | out | reads _ | truncates _ | syncs _ =>
      rw [phase] at waits
      exact absurd waits id
  | read p answer =>
    obtain ⟨⟨ino, calls⟩, answers⟩ := possible
    unfold step
    dsimp only
    rw [calls]
    exact loadRead_steady steady calls answer answers
  | truncated p ok dirty =>
    obtain ⟨ptr, calls⟩ := possible
    unfold step
    dsimp only
    rw [calls]
    exact reclaimTruncated_steady steady calls ok dirty
  | synced p ok =>
    obtain ⟨ptr, calls⟩ := possible
    unfold step
    dsimp only
    rw [calls]
    exact reclaimSynced_steady steady calls ok
  | refInc p receiver ptr => exact inodeRefInc_steady steady receiver possible.2
  | refDec p ptr => exact inodeRefDec_steady steady possible.1 possible.2
  | change p ptr nlinks dirty =>
    obtain ⟨sin, found, used⟩ := steady.kept.used possible.2
    unfold step
    dsimp only
    rw [found]
    exact ⟨_, rfl, steady.rests, steady.kept.change found nlinks dirty, steady.disk_put found used rfl⟩

/-! ## Runs -/

/-- There is at most one inode for a block, it has the references that processes have, and its reclaim count is
the number of calls that have not come to take it down yet, and one if there are references. What a process
refers to or reclaims is there. -/
structure Orderly (sfs : Sfs π) : Prop where
  listed : ∀ ptr, ptr ∈ sfs.inodeList ↔ (sfs.mem ptr).isSome
  unique : ∀ ptr other sin sin', sfs.mem ptr = some sin → sfs.mem other = some sin' → sin.ino = sin'.ino → ptr = other
  counted : ∀ ptr sin, sfs.mem ptr = some sin → sin.refCount = references sfs ptr ∧
    sin.reclaimCount = pending sfs ptr + if 0 < sin.refCount then 1 else 0
  alive : ∀ q ptr, 0 < sfs.held q ptr ∨ sfs.phase q = .reclaims ptr ∨ sfs.phase q = .truncates ptr ∨ sfs.phase q = .syncs ptr →
    (sfs.mem ptr).isSome

/-- An inode is freed only when nobody has a reference to it or waits to reclaim it. -/
structure Good (before : Sfs π) (_ : Event π) (after : Sfs π) : Prop where
  orderly : Orderly after
  freed : ∀ ptr, (before.mem ptr).isSome → after.mem ptr = none → references after ptr = 0 ∧ pending after ptr = 0

omit [DecidableEq π] in
theorem Steady.orderly (steady : Steady sfs) : Orderly sfs := by
  refine ⟨fun ptr => ?_, steady.kept.unique, fun ptr sin found => (steady.kept.found found).2, ?_⟩
  · cases found : sfs.mem ptr with
    | none => exact iff_of_false (steady.kept.missing found).1 nofun
    | some sin => exact iff_of_true (steady.kept.found found).1 rfl
  · intro q ptr refers
    rw [Option.isSome_iff_exists]
    have disk := steady.disk q
    rcases refers with held | calls | calls | calls
    · obtain ⟨sin, found, -⟩ := steady.kept.used held
      exact ⟨sin, found⟩
    · exact steady.kept.called calls
    · rw [calls] at disk
      obtain ⟨sin, found, -⟩ := disk
      exact ⟨sin, found⟩
    · rw [calls] at disk
      obtain ⟨sin, found, -⟩ := disk
      exact ⟨sin, found⟩

omit [DecidableEq π] [Fintype π] in
theorem mounted_rests : Rests (mounted π).fsSem (mounted π).phase := by
  have nobody : {q : π | ((mounted π).phase q).Inside} = ∅ := Set.eq_empty_of_forall_notMem fun _ => id
  have idle (q : π) : ¬ Owns (mounted π).fsSem Set.univ ∅ q := by
    rintro (member | ⟨_, _, granted⟩)
    · exact member
    · cases granted
  unfold Rests
  rw [nobody]
  refine ⟨⟨fun _ _ => iff_of_false List.not_mem_nil nofun, fun _ => List.nodup_nil, fun _ _ => rfl⟩, ?_, fun q place => absurd rfl place, fun q => id⟩
  exact ⟨fun _ _ => le_rfl, fun _ _ _ _ _ _ => rfl, fun _ _ _ q => idle q, fun q _ owns => absurd owns (idle q), fun _ member => absurd member id⟩

omit [DecidableEq π] in
theorem mounted_steady : Steady (mounted π) := by
  refine ⟨mounted_rests, ⟨List.nodup_nil, nofun, fun ptr => ⟨List.not_mem_nil, ?_, ?_⟩⟩, fun _ => trivial⟩
  · exact Finset.sum_eq_zero fun _ _ => rfl
  · exact Finset.sum_eq_zero fun _ _ => rfl

/-- Whatever the processes do and in whatever order they go on, no assertion fails, no call follows a pointer
to an inode that is gone, and the inodes are in order. -/
theorem inodes_orderly (π : Type) [Fintype π] [DecidableEq π] (events : List (Event π))
    (possible : Runs.Along step Possible (mounted π) events) : Runs.Safe step Good (mounted π) events := by
  refine Runs.safe_of_invariant (fun before event (steady : Steady before) possible => ?_) mounted_steady possible
  obtain ⟨after, ran, steady'⟩ := step_steady steady possible
  exact ⟨after, ran, ⟨steady'.orderly, fun ptr _ missing => (steady'.kept.missing missing).2⟩, steady'⟩

/-- Two processes with the inode of block 7: the second waits for the lock while the first reads it from the
disk, and the last one to give up its reference frees it. -/
theorem inode_shared : Runs.Safe step Good (mounted Bool)
    [.load false 7 true, .load true 7 true, .read false (some (1, 100)), .resume true true, .refDec false 100, .refDec true 100] := by
  apply inodes_orderly
  refine ⟨rfl, ?_⟩
  rintro _ ⟨⟩
  refine ⟨rfl, ?_⟩
  rintro _ ⟨⟩
  refine ⟨⟨⟨7, rfl⟩, ?_⟩, ?_⟩
  · rintro _ _ ⟨⟩
    exact ⟨Nat.one_ne_zero, rfl⟩
  rintro _ ⟨⟩
  refine ⟨rfl, ?_⟩
  rintro _ ⟨⟩
  refine ⟨⟨rfl, by decide⟩, ?_⟩
  rintro _ ⟨⟩
  refine ⟨⟨rfl, by decide⟩, ?_⟩
  rintro _ ⟨⟩
  trivial

end Ucore.InodeCache
