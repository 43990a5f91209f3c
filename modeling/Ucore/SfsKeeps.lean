import Ucore.Sfs

/-! A property of the file system that one device access, one allocation and one
freeing keep is kept by every call on a file, however it ends. -/
namespace Ucore.Sfs
open Call

/-- What accesses to the device and changes of the freemap keep. -/
structure Stable (P : SfsFs → Prop) : Prop where
  io : ∀ offset data, Keeps P (disk0Io offset data)
  alloc : Keeps P blockAlloc
  free : ∀ ino, Keeps P (blockFree ino)

namespace Stable
variable {P : SfsFs → Prop} {blkno len offset ino entp ent index more : Nat} {data : Block} {ret : Int}
  {check create write : Bool}

theorem rwblockNolock (stable : Stable P) {data : Option Block} :
    Keeps P (rwblockNolock blkno data check) :=
  keeps_bind (keeps_gets _) fun _ => keeps_bind (keeps_assert _) fun _ => stable.io _ _

theorem wblockNolock (stable : Stable P) : Keeps P (wblockNolock blkno check data) :=
  keeps_bind stable.rwblockNolock fun _ => keeps_pure

theorem rbuf (stable : Stable P) : Keeps P (rbuf len blkno offset) :=
  keeps_bind (keeps_assert _) fun _ => stable.rwblockNolock

theorem wbuf (stable : Stable P) : Keeps P (wbuf data len blkno offset) :=
  keeps_bind (keeps_assert _) fun _ => keeps_bind stable.rwblockNolock fun _ => stable.wblockNolock

theorem blockInuse : Keeps P (blockInuse ino) :=
  keeps_bind (keeps_gets _) fun _ => keeps_bind (keeps_assert _) fun _ => keeps_pure

theorem cleanupEntry (stable : Stable P) : Keeps P (cleanupEntry entp ent ret) :=
  keeps_bind (keeps_onlyIf _ (stable.free _)) fun _ => keeps_fail _

theorem allocEntry (stable : Stable P) : Keeps P (allocEntry entp ent offset) := by
  refine keeps_bind (keeps_attempt stable.alloc) fun outcome => ?_
  cases outcome with
  | error ret => exact stable.cleanupEntry
  | ok ino =>
    refine keeps_bind (keeps_attempt stable.wbuf) fun outcome => ?_
    cases outcome with
    | error ret => exact keeps_bind (stable.free _) fun _ => stable.cleanupEntry
    | ok stored => exact keeps_pure

theorem bmapGetSub (stable : Stable P) : Keeps P (bmapGetSub entp index create) := by
  refine keeps_bind (keeps_assert _) fun _ => ?_
  split
  · refine keeps_bind stable.rbuf fun block => ?_
    split
    · exact keeps_pure
    · exact stable.allocEntry
  · split
    · exact keeps_pure
    · exact keeps_bind stable.alloc fun _ => stable.allocEntry

theorem bmapFreeSub (stable : Stable P) : Keeps P (bmapFreeSub ent index) :=
  keeps_bind blockInuse fun _ => keeps_bind (keeps_assert _) fun _ => keeps_bind stable.rbuf fun _ =>
    keeps_onlyIf _ (keeps_bind stable.wbuf fun _ => stable.free _)

/-! ## On a node -/

/-- The property of a node's file system. -/
abbrev OnNode (P : SfsFs → Prop) : Node → Prop := fun node => P node.fs

theorem onFs {α : Type} {call : Call SfsFs α} (keeps : Keeps P call) :
    Keeps (OnNode P) (onFs call) :=
  keeps_within keeps (fun _ holds => holds) fun _ _ _ holds => holds

theorem onNode {update : Node → Node} (same : ∀ node, (update node).fs = node.fs) :
    Keeps (OnNode P) (modify update) :=
  keeps_modify fun node holds => by
    rw [OnNode, same]
    exact holds

theorem checkedInuse : Keeps (OnNode P) (checkedInuse ino) :=
  keeps_bind (onFs blockInuse) fun _ => keeps_assert _

theorem bmapGet (stable : Stable P) : Keeps (OnNode P) (bmapGet index create) := by
  refine keeps_bind (keeps_gets _) fun node => ?_
  split
  · split
    · exact keeps_bind (onFs stable.alloc) fun _ => keeps_bind (onNode fun _ => rfl) fun _ =>
        keeps_bind (keeps_onlyIf _ checkedInuse) fun _ => keeps_pure
    · exact keeps_bind (keeps_onlyIf _ checkedInuse) fun _ => keeps_pure
  · split
    · refine keeps_bind (onFs stable.bmapGetSub) fun found => keeps_bind (keeps_onlyIf _ ?_) fun _ =>
        keeps_bind (keeps_onlyIf _ checkedInuse) fun _ => keeps_pure
      exact keeps_bind (keeps_assert _) fun _ => onNode fun _ => rfl
    · exact keeps_stop

theorem bmapLoad (stable : Stable P) : Keeps (OnNode P) (bmapLoad index) :=
  keeps_bind (keeps_gets _) fun _ => keeps_bind (keeps_assert _) fun _ =>
    keeps_bind stable.bmapGet fun _ => keeps_bind checkedInuse fun _ =>
    keeps_bind (keeps_onlyIf _ (onNode fun _ => rfl)) fun _ => keeps_pure

theorem bmapTruncate (stable : Stable P) : Keeps (OnNode P) bmapTruncate := by
  refine keeps_bind (keeps_gets _) fun node => keeps_bind (keeps_assert _) fun _ =>
    keeps_bind (keeps_bind (keeps_gets _) fun node => ?_) fun _ => onNode fun _ => rfl
  split
  · exact keeps_onlyIf _ (keeps_bind (onFs (stable.free _)) fun _ => onNode fun _ => rfl)
  · exact keeps_onlyIf _ (onFs stable.bmapFreeSub)

theorem enlarge (stable : Stable P) : Keeps (OnNode P) (enlarge index more) := by
  induction more generalizing index with
  | zero => exact keeps_pure
  | succ more ih => exact keeps_bind stable.bmapLoad fun _ => ih

theorem reduce (stable : Stable P) : Keeps (OnNode P) (reduce more) := by
  induction more with
  | zero => exact keeps_pure
  | succ more ih => exact keeps_bind stable.bmapTruncate fun _ => ih

theorem truncfile (stable : Stable P) {len : Int} : Keeps (OnNode P) (truncfile len) := by
  refine keeps_bind (keeps_gets _) fun node => ?_
  split
  · exact keeps_fail _
  · split
    · exact keeps_assert _
    · refine keeps_bind (keeps_bind (keeps_gets _) fun node => ?_) fun _ =>
        keeps_bind (keeps_gets _) fun _ => keeps_bind (keeps_assert _) fun _ => onNode fun _ => rfl
      split
      · exact stable.enlarge
      · exact stable.reduce

theorem tryseek (stable : Stable P) {pos : Int} : Keeps (OnNode P) (tryseek pos) := by
  refine keeps_bind (keeps_gets _) fun node => ?_
  split
  · exact keeps_fail _
  · split
    · exact stable.truncfile
    · exact keeps_pure

/-! ## Transfers -/

variable {pos size blkoff nblks endpos alen : Nat} {outcome : Except Int Unit}

theorem bufOp (stable : Stable P) : Keeps (OnNode P) (bufOp write pos size ino blkoff) := by
  cases write with
  | true => exact keeps_bind (keeps_gets _) fun _ => keeps_bind (onFs stable.wbuf) fun _ => onNode fun _ => rfl
  | false =>
    exact keeps_bind (onFs stable.rbuf) fun _ => keeps_bind (onNode fun _ => rfl) fun _ => onNode fun _ => rfl

theorem blockTransfer (stable : Stable P) : Keeps (OnNode P) (blockTransfer write pos ino) := by
  cases write with
  | true =>
    exact keeps_bind (keeps_gets _) fun _ => keeps_bind (onFs stable.wblockNolock) fun _ => onNode fun _ => rfl
  | false =>
    exact keeps_bind (onFs stable.rwblockNolock) fun _ => keeps_bind (onNode fun _ => rfl) fun _ =>
      onNode fun _ => rfl

theorem blockOp (stable : Stable P) : Keeps (OnNode P) (blockOp write pos ino nblks) := by
  induction nblks generalizing pos ino with
  | zero => exact keeps_pure
  | succ nblks ih => exact keeps_bind stable.blockTransfer fun _ => ih

theorem finish : Keeps (OnNode P) (finish offset alen outcome) :=
  keeps_bind (keeps_gets _) fun _ => keeps_bind (keeps_onlyIf _ (onNode fun _ => rfl)) fun _ => keeps_pure

theorem ioTail (stable : Stable P) : Keeps (OnNode P) (ioTail write offset endpos alen blkno) := by
  unfold Sfs.ioTail
  dsimp only
  split
  · refine keeps_bind (keeps_attempt (keeps_bind stable.bmapLoad fun _ => stable.bufOp)) fun outcome => ?_
    cases outcome <;> exact finish
  · exact finish

theorem ioBlocks (stable : Stable P) :
    Keeps (OnNode P) (ioBlocks write offset endpos alen blkno nblks) := by
  unfold Sfs.ioBlocks
  split
  · refine keeps_bind (keeps_attempt (keeps_bind stable.bmapLoad fun _ => stable.blockOp)) fun outcome => ?_
    cases outcome with
    | error ret => exact finish
    | ok done => exact stable.ioTail
  · exact stable.ioTail

theorem ioHead (stable : Stable P) : Keeps (OnNode P) (ioHead write offset endpos) := by
  unfold Sfs.ioHead
  by_cases aligned : offset % blksize = 0
  · rw [if_neg (by simpa using aligned)]
    exact stable.ioBlocks
  · rw [if_pos (by simpa using aligned)]
    refine keeps_bind (keeps_attempt (keeps_bind stable.bmapLoad fun _ => stable.bufOp)) fun outcome => ?_
    cases outcome with
    | error ret => exact finish
    | ok done =>
      dsimp only
      split
      · exact finish
      · exact stable.ioBlocks

theorem ioNolock (stable : Stable P) {offset : Int} : Keeps (OnNode P) (ioNolock write offset alen) := by
  refine keeps_bind (keeps_gets _) fun node => keeps_bind (keeps_assert _) fun _ => ?_
  dsimp only
  split
  · exact keeps_pure
  split
  · exact keeps_pure
  split
  · exact stable.ioHead
  split
  · exact keeps_pure
  · exact stable.ioHead

theorem serve (stable : Stable P) (request : Request) : Keeps (OnNode P) (serve request) := by
  cases request with
  | read offset len => exact stable.ioNolock
  | write offset data len => exact stable.ioNolock
  | truncate len => exact keeps_bind (keeps_attempt stable.truncfile) fun _ => keeps_pure
  | seek pos => exact keeps_bind (keeps_attempt stable.tryseek) fun _ => keeps_pure

end Stable
end Ucore.Sfs
