import Ucore.SfsDirectory
import Ucore.SfsReads
import Ucore.SfsVolumeProofs

/-! A directory's listing is that of its entries in use, in the order of their
slots, as long as an offset does not pass 2^32 names. -/
namespace Ucore.Sfs
open Call

variable {node : Node} {vol after : Volume} {dir slot more k : Nat} {inode : Inode} {offset : Int} {entries : List Dirent}

/-- The entries in use from slot `slot` on, in `more` slots. -/
def liveFrom (node : Node) (slot more : Nat) : List Dirent :=
  ((List.range' slot more).map (entryAt node)).filter fun entry => entry.ino ≠ 0

def live (node : Node) : List Dirent := liveFrom node 0 node.din.blocks

theorem liveFrom_succ (node : Node) (slot more : Nat) : liveFrom node slot (more + 1) =
    if (entryAt node slot).ino ≠ 0 then entryAt node slot :: liveFrom node (slot + 1) more
    else liveFrom node (slot + 1) more := by
  rw [liveFrom, List.range'_succ, List.map_cons, List.filter_cons]
  simp only [decide_eq_true_eq]
  rfl

theorem live_length (node : Node) : (live node).length ≤ node.din.blocks := by
  apply (List.length_filter_le _ _).trans
  rw [List.length_map, List.length_range']

/-- The entry with this number, or the end of the directory. -/
def entryOrEnd (entries : List Dirent) (k : Nat) : Except Int Dirent :=
  match entries[k]? with
  | some entry => .ok entry
  | none => .error (-eNoEnt)

theorem getdirentrySub_yields (slots : Slots node) (type : node.din.type = .dir) (inside : slot + more = node.din.blocks) (k : Nat) :
    Yields (getdirentrySub k slot more) node (entryOrEnd (liveFrom node slot more) k) := by
  induction more generalizing node slot k with
  | zero => exact .fail
  | succ more ih =>
    rw [liveFrom_succ]
    refine (direntRead_yields slots type (by omega)).bind fun fs later => ?_
    have rest (k : Nat) : Yields (getdirentrySub k (slot + 1) more) { node with fs := fs }
        (entryOrEnd (liveFrom node (slot + 1) more) k) := by
      have again := ih (slots.later later) type (by change slot + 1 + more = node.din.blocks; omega) k
      obtain ⟨n, rfl⟩ := later
      exact again
    split
    · cases k with
      | zero => exact .pure
      | succ k =>
        rw [if_neg (by omega), Nat.cast_succ, add_sub_cancel_right]
        exact rest k
    · exact rest k

/-! ## On a volume -/

/-- A directory in memory that can be read. -/
structure Listed (vol : Volume) (dir : Nat) (inode : Inode) : Prop where
  loaded : vol.inodes dir = some inode
  type : inode.din.type = .dir
  counts : inode.openCount ≤ inode.refCount ∧ inode.refCount < maxInodeCount
  slots : Slots (vol.node inode)

/-- The device has answered accesses, and requests for memory have been made. -/
def Waited (vol after : Volume) : Prop :=
  ∃ fs n, Later vol.fs fs ∧ after = { vol with fs := fs, kmallocs := fun k => vol.kmallocs (n + k) }

theorem Waited.refl (vol : Volume) : Waited vol vol := ⟨vol.fs, 0, .refl _, by simp⟩

theorem Waited.trans {final : Volume} (first : Waited vol after) (second : Waited after final) : Waited vol final := by
  obtain ⟨fs, n, later, rfl⟩ := first
  obtain ⟨fs', k, later', rfl⟩ := second
  exact ⟨fs', n + k, later.trans later', by simp only [Nat.add_assoc]⟩

theorem Waited.listed (waited : Waited vol after) (listed : Listed vol dir inode) :
    Listed after dir inode ∧ live (after.node inode) = live (vol.node inode) := by
  obtain ⟨fs, n, ⟨j, rfl⟩, rfl⟩ := waited
  exact ⟨⟨listed.loaded, listed.type, listed.counts, listed.slots.later ⟨j, rfl⟩⟩, rfl⟩

/-- What the code answers, with the number of the entry in a word of 32 bits. -/
def answer (entries : List Dirent) (offset : Int) : Except Int (List UInt8 × Int) :=
  if offset < 0 ∨ offset % dentrySize ≠ 0 then .error (-eInval)
  else (entryOrEnd entries (offset / dentrySize % 2 ^ 32).toNat).map fun entry => (entry.name, toOff (offset + dentrySize))

theorem kmalloc_settles {post : Bool → Volume → Prop} {bad : Int → Volume → Prop} {halt : Prop}
    (held : post (vol.kmallocs 0) { vol with kmallocs := fun k => vol.kmallocs (1 + k) }) : Settles kmalloc post bad halt vol := by
  refine .bind (.gets (.bind (.modify (.pure ?_))))
  simpa only [Nat.add_comm] using held

theorem vopCheck_settles (listed : Listed vol dir inode) {post : Unit → Volume → Prop} {bad : Int → Volume → Prop}
    (held : post () vol) : Settles (vopCheck dir dirOnly) post bad False vol := by
  obtain ⟨opened, counted⟩ := listed.counts
  have typed : dirOnly inode.din.type = true := by simp [dirOnly, listed.type]
  have small : (decide (inode.refCount < maxInodeCount) && decide (inode.openCount < maxInodeCount)) = true := by
    simp only [Bool.and_eq_true, decide_eq_true_eq]
    omega
  refine .bind (.of_run (congrArg _ listed.loaded) (.bind (.assert (fun _ => .bind (.assert (fun _ => ?_) ?_)) ?_)))
  · exact .assert (fun _ => held) (by simp [small])
  · simp [opened]
  · simp [typed]

theorem toInt32_emod (n : Int) : toInt32 n % 2 ^ 32 = n % 2 ^ 32 := Int.bmod_emod

/-- A word of 32 bits that is not more than the number of blocks is the number itself. -/
theorem slot_of_le {blocks : Nat} {n : Int} (room : blocks ≤ ndirect + blkNentry) (below : toInt32 n % 2 ^ 32 ≤ blocks) :
    toInt32 n = ((n % 2 ^ 32).toNat : Int) := by
  rw [toInt32_emod] at below
  rw [ndirect, blkNentry] at room
  rw [toInt32, Int.bmod_def]
  omega

/-- The number of blocks of a directory as an `int`. -/
theorem blocks_toInt32 {blocks : Nat} (room : blocks ≤ ndirect + blkNentry) : (toInt32 blocks).toNat = blocks := by
  rw [ndirect, blkNentry] at room
  rw [toInt32, Int.bmod_def]
  omega

/-- What is read of an inode in memory. -/
theorem onInode_yields {α : Type} {call : Call Node α} {outcome : Except Int α} (loaded : vol.inodes dir = some inode)
    (yields : Yields call (vol.node inode) outcome) :
    Settles (onInode dir call) (fun got after => outcome = .ok got ∧ Waited vol after)
      (fun ret after => (outcome = .error ret ∨ Refuses vol.fs ret) ∧ Waited vol after) False vol := by
  have put (m : Node) (passed : Passed (vol.node inode) m) : Waited vol (vol.put dir inode m) := by
    obtain ⟨fs, later, rfl⟩ := passed
    refine ⟨fs, 0, later, ?_⟩
    have same : Function.update vol.inodes dir (some inode) = vol.inodes := by
      rw [← loaded, Function.update_eq_self]
    simp only [Volume.put, Volume.node, same, Nat.zero_add]
  refine .bind (.of_run (congrArg _ loaded) (.within (Settles.weaken yields ?_ ?_)))
  · exact fun got m held => ⟨held.1, put m held.2⟩
  · exact fun ret m held => ⟨held.1, put m held.2⟩

/-- A read of one entry. -/
theorem onInode_settles (listed : Listed vol dir inode) (k : Nat) :
    Settles (onInode dir (getdirentrySub k 0 (toInt32 inode.din.blocks).toNat))
      (fun entry after => entryOrEnd (live (vol.node inode)) k = .ok entry ∧ Waited vol after)
      (fun ret after => (entryOrEnd (live (vol.node inode)) k = .error ret ∨ Refuses vol.fs ret) ∧ Waited vol after) False vol := by
  have room : inode.din.blocks ≤ ndirect + blkNentry := listed.slots.room
  rw [blocks_toInt32 room]
  exact onInode_yields listed.loaded (getdirentrySub_yields listed.slots listed.type (Nat.zero_add (vol.node inode).din.blocks) k)

/-- The call ends with this outcome, unless the device or the allocator refuses. -/
def Answers {α : Type} (call : Call Volume α) (vol : Volume) (outcome : Except Int α) : Prop :=
  Settles call (fun got after => outcome = .ok got ∧ Waited vol after)
    (fun ret after => (outcome = .error ret ∨ Refuses vol.fs ret ∨ ret = -eNoMem ∧ ∃ n, vol.kmallocs n = false) ∧
      Waited vol after) False vol

theorem fileGetdirentry_answers (listed : Listed vol dir inode) (offset : Int) :
    Answers (fileGetdirentry dir offset) vol (answer (live (vol.node inode)) offset) := by
  have asked : Waited vol { vol with kmallocs := fun k => vol.kmallocs (1 + k) } := ⟨vol.fs, 1, .refl _, rfl⟩
  obtain ⟨listed', same⟩ := asked.listed listed
  refine .bind (.bind (vopCheck_settles listed (.bind (kmalloc_settles ?_))))
  cases memory : vol.kmallocs 0 with
  | false => exact .fail ⟨.inr (.inr ⟨rfl, 0, memory⟩), asked⟩
  | true =>
    refine .bind (.of_run (congrArg _ listed'.loaded) ?_)
    dsimp only
    by_cases invalid : offset < 0 ∨ offset % dentrySize ≠ 0
    · rw [if_pos (by simpa using invalid)]
      refine .fail ⟨.inl ?_, asked⟩
      rw [answer, if_pos invalid]
    · rw [if_neg (by simpa using invalid), answer, if_neg invalid]
      by_cases beyond : (inode.din.blocks : Int) < toInt32 (offset / dentrySize) % 2 ^ 32
      · rw [if_pos beyond]
        refine .fail ⟨.inl ?_, asked⟩
        have absent : (live (vol.node inode))[(offset / dentrySize % 2 ^ 32).toNat]? = none := by
          apply List.getElem?_eq_none
          apply (live_length _).trans
          change inode.din.blocks ≤ _
          rw [toInt32_emod] at beyond
          omega
        rw [entryOrEnd, absent]
        rfl
      · rw [if_neg beyond, slot_of_le listed.slots.room (not_lt.mp beyond)]
        refine .bind (Settles.weaken (onInode_settles listed' _) (fun entry after held => ?_) fun ret after held => ?_)
        · rw [same] at held
          rw [if_pos (by decide), held.1]
          exact .pure (.pure ⟨rfl, asked.trans held.2⟩)
        · rw [same] at held
          refine ⟨?_, asked.trans held.2⟩
          rcases held.1 with missing | refused
          · rw [missing]
            exact .inl rfl
          · exact .inr (.inl refused)

/-! ## Listings -/

/-- Requests for memory are met and the device refuses nothing. -/
structure Serves (vol : Volume) : Prop where
  memory : ∀ n, vol.kmallocs n = true
  device : Healthy vol.fs

theorem Waited.serves (waited : Waited vol after) (serves : Serves vol) : Serves after := by
  obtain ⟨fs, n, ⟨k, rfl⟩, rfl⟩ := waited
  exact ⟨fun _ => serves.memory _, fun _ => serves.device _⟩

/-- The answer for an offset: the entry that many names behind the first. -/
def wanted (entries : List Dirent) (offset : Int) : Except Int (List UInt8 × Int) :=
  if offset < 0 ∨ offset % dentrySize ≠ 0 then .error (-eInval)
  else (entryOrEnd entries (offset / dentrySize).toNat).map fun entry => (entry.name, offset + dentrySize)

theorem fileGetdirentry_runs (listed : Listed vol dir inode) (serves : Serves vol) (offset : Int) :
    ∃ after, fileGetdirentry dir offset vol = some (answer (live (vol.node inode)) offset, after) ∧ Waited vol after := by
  have settles := fileGetdirentry_answers listed offset
  cases ran : fileGetdirentry dir offset vol with
  | none => exact absurd ran fun stopped => settles.stops stopped
  | some reached =>
    obtain ⟨outcome, after⟩ := reached
    cases outcome with
    | ok got =>
      obtain ⟨same, waited⟩ := settles.returns got after ran
      exact ⟨after, by rw [same], waited⟩
    | error ret =>
      obtain ⟨same | ⟨n, d, write, refused⟩ | ⟨-, n, refused⟩, waited⟩ := settles.fails ret after ran
      · exact ⟨after, by rw [same], waited⟩
      · rw [serves.device n d write trivial] at refused
        cases refused
      · rw [serves.memory n] at refused
        cases refused

/-- A number of names that the offset counts without passing 2^32 again. -/
def Reaches (entries : List Dirent) (offset : Int) : Prop :=
  offset < 0 ∨ offset % dentrySize ≠ 0 ∨ offset / dentrySize < entries.length ∨
    entries.length ≤ offset / dentrySize % 2 ^ 32

theorem answer_eq_wanted_iff (few : entries.length ≤ ndirect + blkNentry) :
    answer entries offset = wanted entries offset ↔ Reaches entries offset := by
  rw [ndirect, blkNentry] at few
  unfold answer wanted Reaches
  by_cases invalid : offset < 0 ∨ offset % dentrySize ≠ 0
  · rw [if_pos invalid, if_pos invalid]
    exact ⟨fun _ => invalid.elim .inl fun unaligned => .inr (.inl unaligned), fun _ => rfl⟩
  rw [if_neg invalid, if_neg invalid]
  push Not at invalid
  have nonneg : 0 ≤ offset / dentrySize := Int.ediv_nonneg invalid.1 (by decide)
  by_cases inside : offset / dentrySize < entries.length
  · have slot : offset / dentrySize % 2 ^ 32 = offset / dentrySize := Int.emod_eq_of_lt nonneg (by omega)
    have next : toOff (offset + dentrySize) = offset + dentrySize := by
      rw [toOff, Int.bmod_eq_of_le]
      · rw [dentrySize] at inside ⊢
        omega
      · rw [dentrySize] at inside ⊢
        omega
    rw [slot, next]
    exact ⟨fun _ => .inr (.inr (.inl inside)), fun _ => rfl⟩
  · have absent : entryOrEnd entries (offset / dentrySize).toNat = .error (-eNoEnt) := by
      rw [entryOrEnd, List.getElem?_eq_none (by omega)]
    rw [absent]
    constructor
    · intro same
      refine .inr (.inr (.inr ?_))
      by_contra below
      have found : (offset / dentrySize % 2 ^ 32).toNat < entries.length := by omega
      rw [entryOrEnd, List.getElem?_eq_getElem found] at same
      cases same
    · rintro (negative | unaligned | below | beyond)
      · omega
      · exact absurd invalid.2 unaligned
      · exact absurd below inside
      · rw [entryOrEnd, List.getElem?_eq_none (by omega)]
        rfl

/-- From the offset of the entry with number `k`, the rest of the names. -/
theorem enumerate_runs (listed : Listed vol dir inode) (serves : Serves vol) (turns : Nat)
    (inside : k ≤ (live (vol.node inode)).length) (enough : (live (vol.node inode)).length < turns + k) :
    ∃ after, Returns (enumerate dir turns (k * dentrySize : Nat)) vol
      (((live (vol.node inode)).drop k).map (·.name), some (-eNoEnt)) after := by
  have few : (live (vol.node inode)).length ≤ ndirect + blkNentry := (live_length _).trans listed.slots.room
  induction turns generalizing vol k with
  | zero => omega
  | succ turns ih =>
    obtain ⟨next, ran, waited⟩ := fileGetdirentry_runs listed serves (k * dentrySize : Nat)
    have number : ((k * dentrySize : Nat) : Int) / dentrySize = k := by
      rw [dentrySize]
      omega
    have reaches : Reaches (live (vol.node inode)) (k * dentrySize : Nat) := by
      rw [ndirect, blkNentry] at few
      rw [Reaches, number]
      omega
    rw [(answer_eq_wanted_iff few).mpr reaches, wanted, if_neg (by rw [dentrySize]; omega), number, Int.toNat_natCast] at ran
    obtain ⟨listed', same⟩ := waited.listed listed
    rcases inside.lt_or_eq with below | rfl
    · rw [entryOrEnd, List.getElem?_eq_getElem below] at ran
      rw [← same] at few
      obtain ⟨after, rest⟩ := ih listed' (waited.serves serves) (k := k + 1) (by rw [same]; exact below) (by rw [same]; omega) few
      rw [same] at rest
      have advanced : ((k * dentrySize : Nat) : Int) + dentrySize = ((k + 1) * dentrySize : Nat) := by
        rw [dentrySize]
        omega
      rw [advanced] at ran
      refine ⟨after, returns_bind.mpr ⟨_, next, returns_attempt_ok.mpr ran, returns_bind.mpr ⟨_, after, rest, ?_⟩⟩⟩
      rw [List.drop_eq_getElem_cons below]
      exact returns_pure.mpr ⟨rfl, rfl⟩
    · rw [entryOrEnd, List.getElem?_eq_none le_rfl] at ran
      refine ⟨next, returns_bind.mpr ⟨_, next, returns_attempt_error.mpr ran, ?_⟩⟩
      rw [List.drop_length]
      exact returns_pure.mpr ⟨rfl, rfl⟩

/-- Reading entries until the end lists the names in use, each once, in the order of the
slots. From any offset the call answers as it should if and only if the offset does not
come to an entry again behind 2^32 names. Where the device or the allocator refuses, the
call fails for that reason and nothing else. -/
theorem directory_listed (listed : Listed vol dir inode) :
    (Serves vol → (∀ turns, (live (vol.node inode)).length < turns → ∃ after, Returns (enumerate dir turns 0) vol
        ((live (vol.node inode)).map (·.name), some (-eNoEnt)) after) ∧
      ∀ offset, (∃ after, fileGetdirentry dir offset vol = some (wanted (live (vol.node inode)) offset, after)) ↔
        Reaches (live (vol.node inode)) offset) ∧
    ∀ offset, Reaches (live (vol.node inode)) offset →
      Answers (fileGetdirentry dir offset) vol (wanted (live (vol.node inode)) offset) := by
  have few : (live (vol.node inode)).length ≤ ndirect + blkNentry := (live_length _).trans listed.slots.room
  refine ⟨fun serves => ⟨fun turns enough => ?_, fun offset => ?_⟩, fun offset reaches => ?_⟩
  · obtain ⟨after, ran⟩ := enumerate_runs listed serves turns (k := 0) (Nat.zero_le _) enough
    rw [List.drop_zero, Nat.zero_mul] at ran
    exact ⟨after, ran⟩
  · rw [← answer_eq_wanted_iff few]
    obtain ⟨after, ran, -⟩ := fileGetdirentry_runs listed serves offset
    rw [ran]
    constructor
    · rintro ⟨after', same⟩
      exact (Prod.mk.inj (Option.some.inj same)).1
    · intro same
      exact ⟨after, by rw [same]⟩
  · rw [← (answer_eq_wanted_iff few).mpr reaches]
    exact fileGetdirentry_answers listed offset

/-! ## A directory with a hole -/

/-- Three slots, the blocks 4, 5 and 6. -/
def gapDins : DiskInode where
  size := 3 * 4096
  type := .dir
  blocks := 3
  direct i := if i < 3 then i + 4 else 0
  indirect := 0

/-- The names `f` and `g` of the file 3; the name `e` between them was removed. -/
def gapDisk (faults : Nat → Nat → Bool → Option Int) : Volume where
  fs := {
    blocks := 8
    unusedBlocks := 1
    superDirty := false
    freemap := fun blkno => decide (blkno = 7)
    disk := fun blkno =>
      if blkno = 4 then fun i => if i = 0 then 3 else if i = 4 then 0x66 else 0
      else if blkno = 5 then fun i => if i = 4 then 0x65 else 0
      else if blkno = 6 then fun i => if i = 0 then 3 else if i = 4 then 0x67 else 0
      else fun _ => 0
    dBlocks := 8
    faults }
  inodes := fun ino => if ino = 1 then some ⟨gapDins, 1, false, 1, 1, 0⟩ else none
  kmallocs := fun _ => true
  buf := fun _ => 0

def gapRoot : Inode := ⟨gapDins, 1, false, 1, 1, 0⟩

theorem gapRoot_listed (faults : Nat → Nat → Bool → Option Int) : Listed (gapDisk faults) 1 gapRoot := by
  refine ⟨rfl, rfl, by decide, ⟨le_rfl, show 8 < 2 ^ 20 by decide⟩, show 3 ≤ ndirect + blkNentry by decide,
    fun i below => ?_, fun present => absurd rfl present⟩
  have direct : i < 3 := below
  have block : fileBlock ((gapDisk faults).node gapRoot) i = i + 4 :=
    (fileBlock_direct (show i < ndirect by rw [ndirect]; omega)).trans (if_pos direct)
  rw [block]
  refine ⟨by omega, show i + 4 < 8 by omega, ?_⟩
  exact decide_eq_false (by omega)

theorem gapRoot_live : (live ((gapDisk fun _ _ _ => none).node gapRoot)).map (·.name) = [[0x66], [0x67]] := by
  decide +kernel

/-- Both names are listed; on a device that refuses every read nothing else is answered than that. -/
theorem gapRoot_listing : (∃ after, Returns (enumerate 1 3 0) (gapDisk fun _ _ _ => none) ([[0x66], [0x67]], some (-eNoEnt)) after) ∧
    (∀ offset, (∃ after, fileGetdirentry 1 offset (gapDisk fun _ _ _ => none) =
        some (wanted (live ((gapDisk fun _ _ _ => none).node gapRoot)) offset, after)) ↔
      Reaches (live ((gapDisk fun _ _ _ => none).node gapRoot)) offset) ∧
    ∀ offset, Reaches (live ((gapDisk fun _ _ _ => some (-eInval)).node gapRoot)) offset →
      Answers (fileGetdirentry 1 offset) (gapDisk fun _ _ _ => some (-eInval))
        (wanted (live ((gapDisk fun _ _ _ => some (-eInval)).node gapRoot)) offset) := by
  have serves : Serves (gapDisk fun _ _ _ => none) := ⟨fun _ => rfl, fun _ _ _ _ => rfl⟩
  obtain ⟨all, answers⟩ := (directory_listed (gapRoot_listed fun _ _ _ => none)).1 serves
  have two : (live ((gapDisk fun _ _ _ => none).node gapRoot)).length < 3 := by
    rw [← List.length_map, gapRoot_live]
    decide
  obtain ⟨after, ran⟩ := all 3 two
  rw [gapRoot_live] at ran
  exact ⟨⟨after, ran⟩, answers, (directory_listed (gapRoot_listed fun _ _ _ => some (-eInval))).2⟩

/-! ## A directory of one file -/

def smallRoot : Inode := ⟨smallDins 1, 1, false, 1, 1, 0⟩

theorem smallRoot_listed : Listed smallDisk 1 smallRoot := by
  refine ⟨rfl, rfl, by decide, ⟨le_rfl, show 6 < 2 ^ 20 by decide⟩, by decide, fun i below => ?_, fun present => absurd rfl present⟩
  obtain rfl : i = 0 := Nat.lt_one_iff.mp below
  exact ⟨by decide, show 4 < 6 by decide, rfl⟩

theorem smallDisk_serves : Serves smallDisk := ⟨fun _ => rfl, fun _ _ _ _ => rfl⟩

theorem smallRoot_live : (live (smallDisk.node smallRoot)).map (·.name) = [[0x66]] := by decide +kernel

/-- Behind 2^32 names the file is found again. -/
theorem far_offset_finds : Listed smallDisk 1 smallRoot ∧ Serves smallDisk ∧
    ¬ ∃ after, fileGetdirentry 1 (2 ^ 40) smallDisk = some (wanted (live (smallDisk.node smallRoot)) (2 ^ 40), after) := by
  refine ⟨smallRoot_listed, smallDisk_serves, ?_⟩
  rintro ⟨after, ran⟩
  obtain ⟨after', ran', -⟩ := fileGetdirentry_runs smallRoot_listed smallDisk_serves (2 ^ 40)
  have one : (live (smallDisk.node smallRoot)).length = 1 := by
    rw [← List.length_map, smallRoot_live]
    rfl
  have reaches := (answer_eq_wanted_iff (by rw [one]; decide)).mp (Prod.mk.inj (Option.some.inj (ran'.symm.trans ran))).1
  rw [Reaches, one] at reaches
  revert reaches
  decide

end Ucore.Sfs
