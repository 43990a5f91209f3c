import Ucore.Ensures
import Ucore.SfsProofs
import Ucore.SfsVolume

/-! Reading inodes and directories. On blocks that are in use no read stops the
system, and each fails only where the device refuses an access. -/
namespace Ucore.Sfs
open Call

variable {α β : Type} {sfs fs : SfsFs} {node after : Node} {blkno len offset index slot : Nat} {value : α}
  {call : Call Node α} {next : α → Call Node β} {outcome : Except Int β}

/-! ## Accesses -/

/-- The device has answered some accesses, and nothing else has changed. -/
def Later (sfs after : SfsFs) : Prop := ∃ n, after = { sfs with faults := fun k => sfs.faults (n + k) }

theorem Later.refl (sfs : SfsFs) : Later sfs sfs := ⟨0, by simp⟩

theorem Later.trans {final : SfsFs} (first : Later sfs fs) (second : Later fs final) : Later sfs final := by
  obtain ⟨n, rfl⟩ := first
  obtain ⟨k, rfl⟩ := second
  exact ⟨n + k, by simp only [Nat.add_assoc]⟩

/-- The device answers an access with this error. -/
def Refuses (sfs : SfsFs) (ret : Int) : Prop := ∃ n d write, sfs.faults n d write = some ret

theorem Later.refuses {ret : Int} (later : Later sfs fs) (refuses : Refuses fs ret) : Refuses sfs ret := by
  obtain ⟨n, rfl⟩ := later
  obtain ⟨k, refused⟩ := refuses
  exact ⟨n + k, refused⟩

theorem Later.mounted (later : Later sfs fs) (mounted : Mounted sfs) : Mounted fs := by
  obtain ⟨n, rfl⟩ := later
  exact mounted.congr rfl rfl

/-- A call that reads this, unless the device refuses. -/
def Reads {α : Type} (call : Call SfsFs α) (sfs : SfsFs) (value : α) : Prop :=
  Settles call (fun got after => got = value ∧ Later sfs after) (fun ret after => Refuses sfs ret ∧ Later sfs after) False sfs

theorem rblockNolock_reads (mounted : Mounted sfs) (nonzero : blkno ≠ 0) (below : blkno < sfs.blocks) :
    Reads (rblockNolock blkno true) sfs (sfs.disk blkno) := by
  obtain ⟨address, same⟩ := mounted.at_block below
  have inside := mounted.inside
  have valid : ¬ ((decide (blkno * blksize % 2 ^ 32 % blksize ≠ 0) ||
      decide (sfs.dBlocks < blkno * blksize % 2 ^ 32 / blksize + 1)) = true) := by
    rw [same, address, Nat.mul_mod_left]
    simp only [ne_eq, not_true_eq_false, decide_false, Bool.false_or, decide_eq_true_eq]
    omega
  refine .bind (.gets (.bind (.assert (fun _ => .bind (.gets ?_)) fun failing => ?_)))
  · dsimp only
    rw [if_neg valid, same]
    refine .bind (.modify ?_)
    rw [Option.isSome_none]
    split
    · rename_i ret answer
      apply Settles.fail
      exact ⟨⟨0, blkno, false, answer⟩, 1, by simp only [Nat.add_comm]⟩
    · apply Settles.pure
      exact ⟨rfl, 1, by simp only [Nat.add_comm]⟩
  · simp only [Bool.and_eq_false_iff, Bool.or_eq_false_iff, decide_eq_false_iff_not, ne_eq, not_not] at failing
    rcases failing with ⟨zero, -⟩ | above
    · exact nonzero zero
    · exact above below

theorem rbuf_reads (mounted : Mounted sfs) (nonzero : blkno ≠ 0) (below : blkno < sfs.blocks) (fits : offset + len ≤ blksize)
    (inside : offset < blksize) : Reads (rbuf len blkno offset) sfs (sfs.disk blkno) :=
  .bind (.assert (fun _ => rblockNolock_reads mounted nonzero below) (by simp [inside, fits]))

theorem blockInuse_reads {ino : Nat} (inuse : InUse sfs ino) : Reads (blockInuse ino) sfs true := by
  obtain ⟨nonzero, below, marked⟩ := inuse
  refine .bind (.gets (.bind (.assert (fun _ => .pure ?_) (by simp [nonzero, below]))))
  rw [marked]
  exact ⟨rfl, .refl _⟩

/-! ## On a node -/

/-- The same node a few accesses later. -/
def Passed (node after : Node) : Prop := ∃ fs, Later node.fs fs ∧ after = { node with fs := fs }

theorem Passed.refl (node : Node) : Passed node node := ⟨node.fs, .refl _, rfl⟩

theorem Passed.trans {final : Node} (first : Passed node after) (second : Passed after final) : Passed node final := by
  obtain ⟨fs, later, rfl⟩ := first
  obtain ⟨fs', later', rfl⟩ := second
  exact ⟨fs', later.trans later', rfl⟩

/-- A call that only reads and ends so, unless the device refuses. -/
def Yields (call : Call Node α) (node : Node) (outcome : Except Int α) : Prop :=
  Settles call (fun got after => outcome = .ok got ∧ Passed node after)
    (fun ret after => (outcome = .error ret ∨ Refuses node.fs ret) ∧ Passed node after) False node

namespace Yields

theorem pure : Yields (pure value) node (.ok value) := Settles.pure ⟨rfl, .refl node⟩

theorem fail {ret : Int} : Yields (fail ret : Call Node α) node (.error ret) := Settles.fail ⟨.inl rfl, .refl node⟩

theorem bind (first : Yields call node (.ok value))
    (rest : ∀ fs, Later node.fs fs → Yields (next value) { node with fs := fs } outcome) : Yields (call >>= next) node outcome := by
  refine Settles.bind (Settles.weaken first (fun got after held => ?_) fun ret after held => ?_)
  · obtain ⟨same, fs, later, rfl⟩ := held
    obtain rfl := Except.ok.inj same
    refine (rest fs later).weaken (fun got after held => ⟨held.1, ?_⟩) fun ret after held => ⟨?_, ?_⟩
    · exact Passed.trans ⟨fs, later, rfl⟩ held.2
    · exact held.1.imp_right later.refuses
    · exact Passed.trans ⟨fs, later, rfl⟩ held.2
  · obtain ⟨refused, passed⟩ := held
    exact ⟨.inr (refused.resolve_left nofun), passed⟩

theorem assert {condition : Bool} (holds : condition = true) : Yields (assert condition) node (.ok ()) :=
  Settles.assert (fun _ => ⟨rfl, .refl node⟩) (by simp [holds])

theorem node_bind {next : Node → Call Node β} (rest : Yields (next node) node outcome) :
    Yields (gets (fun node => node) >>= next) node outcome := by
  unfold Yields
  exact Settles.bind (Settles.gets rest)

theorem onFs {call : Call SfsFs α} (reads : Reads call node.fs value) : Yields (onFs call) node (.ok value) :=
  Settles.within (Settles.weaken reads (fun _ fs held => ⟨congrArg _ held.1.symm, fs, held.2, rfl⟩)
    fun _ fs held => ⟨.inr held.1, fs, held.2, rfl⟩)

end Yields

theorem checkedInuse_yields {ino : Nat} (inuse : InUse node.fs ino) : Yields (checkedInuse ino) node (.ok ()) :=
  (Yields.onFs (blockInuse_reads inuse)).bind fun _ _ => Yields.assert rfl

/-! ## Directories -/

/-- The slots of a directory have blocks in use, and its indirect block is on the disk. -/
structure Slots (node : Node) : Prop where
  mounted : Mounted node.fs
  room : node.din.blocks ≤ ndirect + blkNentry
  data : ∀ i < node.din.blocks, InUse node.fs (fileBlock node i)
  indirect : node.din.indirect ≠ 0 → node.din.indirect < node.fs.blocks

theorem Slots.later (slots : Slots node) (later : Later node.fs fs) : Slots { node with fs := fs } := by
  obtain ⟨n, rfl⟩ := later
  exact ⟨slots.mounted.congr rfl rfl, slots.room, slots.data, slots.indirect⟩

theorem bmapGet_yields (slots : Slots node) (inside : index < node.din.blocks) :
    Yields (bmapGet index false) node (.ok (fileBlock node index)) := by
  have used := slots.data index inside
  refine .node_bind ?_
  by_cases direct : index < ndirect
  · rw [if_pos direct, Bool.and_false, if_neg Bool.false_ne_true]
    rw [fileBlock_direct direct] at used ⊢
    rw [decide_eq_true used.1]
    exact (checkedInuse_yields used).bind fun _ _ => .pure
  · have present : node.din.indirect ≠ 0 := by
      intro absent
      exact used.1 (fileBlock_absent direct absent)
    have room : index - ndirect < blkNentry := by
      have room := slots.room
      omega
    rw [if_neg direct, if_pos room]
    rw [fileBlock_indirect direct present] at used ⊢
    have entry : Reads (bmapGetSub node.din.indirect (index - ndirect) false) node.fs
        (loadU32 (node.fs.disk node.din.indirect) ((index - ndirect) * 4), node.din.indirect) := by
      refine .bind (.assert (fun _ => ?_) (by simp [room]))
      rw [if_pos present]
      refine .bind (Settles.weaken (rbuf_reads slots.mounted present (slots.indirect present) ?_ ?_) ?_ fun _ _ held => held)
      · rw [blkNentry] at room
        rw [blksize]
        omega
      · rw [blkNentry] at room
        rw [blksize]
        omega
      · rintro _ fs ⟨rfl, later⟩
        rw [Bool.not_false, Bool.or_true, if_pos rfl]
        exact .pure ⟨rfl, later⟩
    refine (Yields.onFs entry).bind fun fs later => ?_
    dsimp only
    rw [decide_eq_false (by simp), decide_eq_true used.1]
    refine Yields.pure.bind fun fs' later' => (checkedInuse_yields ?_).bind fun _ _ => .pure
    obtain ⟨n, rfl⟩ := later
    obtain ⟨k, rfl⟩ := later'
    exact used

theorem bmapLoad_yields (slots : Slots node) (inside : index < node.din.blocks) :
    Yields (bmapLoad index) node (.ok (fileBlock node index)) := by
  refine .node_bind ((Yields.assert (by simp [inside.le])).bind fun fs later => ?_)
  have slots' := slots.later later
  rw [decide_eq_false inside.ne]
  have same : fileBlock { node with fs := fs } index = fileBlock node index := by
    obtain ⟨n, rfl⟩ := later
    rfl
  rw [← same]
  refine (bmapGet_yields slots' inside).bind fun fs' later' => ?_
  refine (checkedInuse_yields ?_).bind fun _ _ => Yields.pure.bind fun _ _ => .pure
  obtain ⟨n, rfl⟩ := later'
  exact slots'.data index inside

/-- The entry in a slot. -/
def entryAt (node : Node) (slot : Nat) : Dirent := direntOf (node.fs.disk (fileBlock node slot))

theorem direntRead_yields (slots : Slots node) (dir : node.din.type = .dir) (inside : slot < node.din.blocks) :
    Yields (direntRead slot) node (.ok (entryAt node slot)) := by
  refine .node_bind ((Yields.assert (by simp [dir, inside])).bind fun fs later => ?_)
  obtain ⟨n, rfl⟩ := later
  have slots := slots.later ⟨n, rfl⟩
  refine (bmapLoad_yields slots inside).bind fun fs later => ?_
  obtain ⟨k, rfl⟩ := later
  have slots := slots.later ⟨k, rfl⟩
  have used := slots.data slot inside
  refine (checkedInuse_yields used).bind fun fs later => ?_
  obtain ⟨l, rfl⟩ := later
  have slots := slots.later ⟨l, rfl⟩
  exact (Yields.onFs (rbuf_reads slots.mounted used.1 used.2.1 (by decide) (by decide))).bind fun _ _ => .pure

end Ucore.Sfs
