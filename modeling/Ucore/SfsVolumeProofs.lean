import Ucore.Ensures
import Ucore.SfsAllocation

/-! Calls on a mounted SFS. However it ends, a call leaves every block in use with
one owner; only a device that refuses to clear a new block, a write that does not
land on its own blocks and an inode that is given up without its last block make
an exception. -/
namespace Ucore.Sfs
open Call Runs

variable {vol : Volume} {inodes : List Nat} {dins : Nat → DiskInode} {ino dir slot more : Nat} {inode : Inode}
  {node origin : Node} {later after : Volume} {guarded : Nat → Prop} {fs : SfsFs} {din : DiskInode} {d : Nat}

/-! ## Calls on one file -/

/-- A request that leaves the blocks of others alone: no new block is refused its clearing,
and the blocks behind the first one of a longer write are there and next to each other, or
at least not on an inode, an indirect block or a directory. -/
def IoSafe (guarded : Nat → Prop) (node : Node) : Request → Prop
  | .read _ _ => Covered node ∨ ClearsFree node.fs
  | .write offset _ len => ClearsFree node.fs ∧
      LandsFree guarded node ((offset.toNat + (blksize - 1)) / blksize)
        ((reach offset len).toNat / blksize - (offset.toNat + (blksize - 1)) / blksize)
  | .truncate len => len ≤ maxFileSize → node.din.blocks < blocksFor len.toNat → ClearsFree node.fs
  | .seek pos => node.din.size < pos → pos < maxFileSize → node.din.blocks < blocksFor pos.toNat →
      ClearsFree node.fs

theorem Looked.local {after : Node} (looked : Looked node after) (sound : Sound node) :
    Local (fun d => node.fs.freemap d = false ∧ ¬ Maps node d) guarded node after := by
  obtain ⟨faults, buf, moved, rfl⟩ := looked
  exact (Local.start sound).congr ⟨rfl, rfl, rfl⟩ ⟨rfl, rfl⟩ rfl (fun _ => rfl) fun _ _ _ => rfl

theorem truncfile_too_long {after : Node} {len : Int} {outcome : Except Int Unit} (long : (maxFileSize : Int) < len)
    (ran : Returns (attempt (truncfile len)) node outcome after) : after = node := by
  cases outcome with
  | ok done =>
    obtain ⟨_, _, got, rest⟩ := returns_bind.mp (returns_attempt_ok.mp ran)
    obtain ⟨rfl, rfl⟩ := returns_gets.mp got
    rw [if_pos (by simp [long])] at rest
    exact absurd rest (not_returns_fail _)
  | error ret =>
    rcases fails_bind.mp (returns_attempt_error.mp ran) with failed | ⟨_, _, got, rest⟩
    · exact absurd failed not_fails_gets
    obtain ⟨rfl, rfl⟩ := returns_gets.mp got
    rw [if_pos (by simp [long])] at rest
    exact (fails_fail.mp rest).2.symm

theorem truncate_local {after : Node} {len : Int} {outcome : Except Int Unit} (sound : Sound node)
    (safe : len ≤ maxFileSize → node.din.blocks < blocksFor len.toNat → ClearsFree node.fs)
    (ran : Returns (attempt (truncfile len)) node outcome after) :
    Local (fun d => node.fs.freemap d = false ∧ ¬ Maps node d) guarded node after := by
  by_cases short : len ≤ maxFileSize
  · exact Local.truncfile sound (safe short) ran
  · rw [truncfile_too_long (by omega) ran]
    exact Local.start sound

/-- A request on a file, and the blocks of everything else. -/
theorem serve_local {after : Node} {request : Request} {result : Nat × Except Int Unit} (sound : Sound node)
    (safe : IoSafe guarded node request) (own : node.din.indirect ≠ 0 → guarded node.din.indirect)
    (ran : Returns (serve request) node result after) :
    Local (fun d => node.fs.freemap d = false ∧ ¬ Maps node d) guarded node after := by
  obtain ⟨alen, outcome⟩ := result
  cases request with
  | read offset len =>
    rcases safe with covered | clears
    · exact (read_keeps sound covered ran).local sound
    rcases ioNolock_ends ran with ⟨_, rfl, _⟩ | ⟨_, _, _, io⟩
    · exact Local.start sound
    · exact ((Growing.start sound clears).head io (fun never => by cases never) own).toLocal
  | write offset data len =>
    obtain ⟨clears, lands⟩ := safe
    rcases ioNolock_ends ran with ⟨_, rfl, _⟩ | ⟨_, _, io⟩
    · exact Local.start sound
    · exact ((Growing.start sound clears).head io (fun _ => lands) own).toLocal
  | truncate len =>
    obtain ⟨_, _, tried, ending⟩ := returns_bind.mp ran
    obtain ⟨_, rfl⟩ := returns_pure.mp ending
    exact truncate_local sound safe tried
  | seek pos =>
    obtain ⟨_, _, tried, ending⟩ := returns_bind.mp ran
    obtain ⟨_, rfl⟩ := returns_pure.mp ending
    rcases tryseek_cases tried with ⟨rfl, _⟩ | ⟨beyond, valid, tried⟩
    · exact Local.start sound
    · exact truncate_local sound (fun _ => safe beyond valid) tried

/-! ## Calls on a volume -/

section
variable {α : Type} {bad : Int → Volume → Prop} {kinds : FileType → Bool}

/-- Behind a reference to an inode it is in memory. -/
theorem ensures_getInode {post : Inode → Volume → Prop}
    (held : ∀ inode, vol.inodes ino = some inode → post inode vol) : Ensures (getInode ino) post bad vol := by
  refine ⟨fun inode after ran => ?_, fun ret after failed => ?_, fun _ => trivial⟩
  · obtain ⟨found, at_ino, same⟩ := Option.map_eq_some_iff.mp ran
    cases same
    exact held _ at_ino
  · obtain ⟨found, _, never⟩ := Option.map_eq_some_iff.mp failed
    cases (Prod.mk.inj never).1

theorem ensures_vopCheck {post : Unit → Volume → Prop}
    (held : ∀ inode, vol.inodes ino = some inode → kinds inode.din.type = true → post () vol) :
    Ensures (vopCheck ino kinds) post bad vol :=
  .bind (ensures_getInode fun inode at_ino => .bind (.assert (fun kind => .bind (.assert (fun _ =>
    .assert (fun _ => held inode at_ino kind) fun _ => trivial) fun _ => trivial)) fun _ => trivial))

theorem ensures_kmalloc {post : Bool → Volume → Prop}
    (held : ∀ got kmallocs, post got { vol with kmallocs := kmallocs }) : Ensures kmalloc post bad vol :=
  .bind (.gets (.bind (.modify (.pure (held _ _)))))

theorem ensures_blockInuse {post : Bool → Volume → Prop} (held : ∀ inuse, post inuse vol) :
    Ensures (onDisk (blockInuse ino)) post bad vol :=
  .within (.bind (.gets (.bind (.assert (fun _ => .pure (held _)) fun _ => trivial))))

/-- A read of the disk changes only what the device answers next. -/
theorem ensures_rbuf {len : Nat} {post : Block → Volume → Prop} (mounted : Mounted vol.fs)
    (held : ∀ faults, post (vol.fs.disk ino) { vol with fs := { vol.fs with faults := faults } })
    (failed : ∀ faults ret, bad ret { vol with fs := { vol.fs with faults := faults } }) :
    Ensures (onDisk (rbuf len ino 0)) post bad vol := by
  refine .within ⟨fun block fs ran => ?_, fun ret fs refused => ?_, fun _ => trivial⟩
  · obtain ⟨rfl, faults, rfl⟩ := rbuf_returns ran mounted
    exact held faults
  · obtain ⟨_, faults, rfl⟩ := rbuf_fails mounted refused
    exact failed faults ret

theorem ensures_wbuf {len : Nat} {data : Block} {post : Unit → Volume → Prop} (mounted : Mounted vol.fs)
    (held : ∀ faults, post () { vol with fs := { vol.fs with
      faults := faults
      disk := Function.update vol.fs.disk ino (overlay (vol.fs.disk ino) data len 0) } })
    (failed : ∀ faults ret, bad ret { vol with fs := { vol.fs with faults := faults } }) :
    Ensures (onDisk (wbuf data len ino 0)) post bad vol := by
  refine .within ⟨fun _ fs ran => ?_, fun ret fs refused => ?_, fun _ => trivial⟩
  · obtain ⟨faults, rfl⟩ := wbuf_returns ran mounted
    exact held faults
  · obtain ⟨faults, rfl⟩ := wbuf_fails mounted refused
    exact failed faults ret

end

theorem dinOf_links {block : Block} {read : DiskInode} {links : Nat} (found : dinOf block = some (read, links)) :
    links = word block 1 / 2 ^ 16 := by
  obtain ⟨type, _, same⟩ := Option.map_eq_some_iff.mp found
  exact (Prod.mk.inj same).2.symm

/-- Loading an inode leaves the blocks alone. -/
theorem sfsLoadInode_ensures (wf : WellFormed inodes dins vol) (member : ino ∈ inodes) :
    Ensures (sfsLoadInode ino) (fun _ => WellFormed inodes dins) (fun _ => WellFormed inodes dins) vol := by
  refine .bind (.gets ?_)
  cases at_ino : vol.inodes ino with
  | some inode =>
    obtain ⟨_, same, links⟩ := wf.loaded ino inode at_ino
    exact .modify (wf.set member (by exact same) links)
  | none =>
    refine .bind (ensures_kmalloc fun got kmallocs => ?_)
    cases got with
    | false => exact .fail (wf.same ⟨_, rfl⟩ rfl)
    | true =>
      refine .bind (ensures_blockInuse fun inuse => .bind (.assert (fun _ => .bind ?_) fun _ => trivial))
      refine ensures_rbuf wf.mounted (fun faults => .bind (.assert (fun linked => .bind ?_) fun _ => trivial))
        fun faults _ => wf.same ⟨_, rfl⟩ rfl
      refine ensures_kmalloc fun got kmallocs => ?_
      cases got with
      | false => exact .fail (wf.same ⟨_, rfl⟩ rfl)
      | true =>
        obtain ⟨read, links, found, same⟩ := wf.stored ino member (.inl at_ino)
        dsimp only
        rw [found]
        have linked : links ≠ 0 := by
          rw [dinOf_links found]
          exact of_decide_eq_true linked
        have read_wf : ∀ faults kmallocs, WellFormed inodes dins
            { vol with fs := { vol.fs with faults := faults }, kmallocs := kmallocs } :=
          fun _ _ => wf.same ⟨_, rfl⟩ rfl
        exact .bind (.assert (fun _ => .modify ((read_wf _ _).set member (by exact same) linked)) fun _ => trivial)

theorem WellFormed.pinned_ne (wf : WellFormed inodes dins vol) (member : ino ∈ inodes)
    (pinned : Pinned inodes dins vol.fs d) : d ≠ ino := by
  obtain ⟨other, member', which⟩ := pinned
  have maps : Maps (fileNode vol.fs (dins other)) d := by
    rcases which with indirect | ⟨_, slot, below, same⟩
    · exact .inr indirect
    · exact .inl ⟨slot, below, same⟩
  rintro rfl
  have same := wf.apart other member' d member d (.inr maps) (.inl rfl)
  rw [same] at maps
  exact (wf.self d member).2 maps

/-- The words of a block map fit the disk. -/
theorem map_small (sound : Sound (fileNode fs din)) :
    din.blocks < 2 ^ 32 ∧ (∀ i < ndirect, din.direct i < 2 ^ 32) ∧ din.indirect < 2 ^ 32 := by
  have room := sound.room
  have small : ∀ {d}, InUse fs d → d < 2 ^ 32 := by
    intro d used
    have below := used.2.1
    have inside := sound.mounted.inside
    have small := sound.mounted.small
    simp only [fileNode] at *
    omega
  refine ⟨?_, fun i below => ?_, ?_⟩
  · simp only [fileNode, ndirect, blkNentry] at room
    omega
  · have at_i : fileBlock (fileNode fs din) i = din.direct i := fileBlock_direct below
    by_cases inside : i < din.blocks
    · have used := sound.data i inside
      rw [at_i] at used
      exact small used
    · have empty := sound.unmapped i (Nat.le_of_not_lt inside) (Nat.lt_add_right _ below)
      rw [at_i] at empty
      rw [show din.direct i = 0 from empty]
      decide
  · by_cases absent : din.indirect = 0
    · rw [absent]
      decide
    · exact small (sound.indirect absent).1

/-- An inode that is written back has its block map on the disk. -/
theorem WellFormed.wrote (wf : WellFormed inodes dins vol) (at_ino : vol.inodes ino = some inode)
    {faults : Nat → Nat → Bool → Option Int} {links : Nat}
    (fs : after.fs = { vol.fs with
      faults := faults
      disk := Function.update vol.fs.disk ino (overlay (vol.fs.disk ino) (dinBytes inode.din links) dinSize 0) })
    (memory : after.inodes = vol.inodes) : WellFormed inodes dins after ∧ Backed dins after ino := by
  obtain ⟨member, same, _⟩ := wf.loaded ino inode at_ino
  obtain ⟨blocks, direct, indirect⟩ := map_small (same.sound (wf.sound ino member))
  have backed : Backed dins after ino := by
    obtain ⟨read, links, found, again⟩ := dinOf_dinBytes (vol.fs.disk ino) links blocks direct indirect
    refine ⟨read, links, ?_, again.trans same⟩
    rw [fs]
    simp only [Function.update_self]
    exact found
  refine ⟨wf.move ?_ ?_ (fun d pinned => ?_) (fun other found at_other => ?_) fun other member' which => ?_, backed⟩
  · rw [fs]
    exact ⟨rfl, rfl⟩
  · rw [fs]
    exact ⟨rfl, rfl⟩
  · rw [fs]
    exact Function.update_of_ne (wf.pinned_ne member pinned) _ _
  · rw [memory] at at_other
    exact wf.loaded other found at_other
  · by_cases this : other = ino
    · rw [this]
      exact backed
    · rw [memory] at which
      obtain ⟨read, rest⟩ := wf.stored other member' which
      refine ⟨read, ?_⟩
      rw [fs]
      simp only [Function.update_of_ne this]
      exact rest

/-- `sfs_fsync` writes back an inode that is dirty. -/
theorem sfsFsync_ensures (wf : WellFormed inodes dins vol) (at_ino : vol.inodes ino = some inode) :
    Ensures (sfsFsync ino) (fun _ after => WellFormed inodes dins after ∧
      ((inode.dirty = false → Backed dins vol ino) → Backed dins after ino))
      (fun _ => WellFormed inodes dins) vol := by
  refine .bind (ensures_vopCheck fun _ _ _ => .bind (ensures_getInode fun found at_found => ?_))
  obtain rfl := Option.some.inj (at_ino.symm.trans at_found)
  obtain ⟨member, same, links⟩ := wf.loaded ino inode at_ino
  refine .onlyIf (fun dirty => ?_) fun clean => ⟨wf, fun backed => backed clean⟩
  have cleaned : WellFormed inodes dins (vol.set ino (some { inode with dirty := false })) :=
    wf.set member (by exact same) (by exact links)
  refine .bind (.modify (.bind (.attempt (ensures_wbuf cleaned.mounted (fun faults => ?_) fun faults ret => ?_))))
  · refine .pure (And.imp_right (fun backed _ => backed) ?_)
    exact cleaned.wrote (set_self _) rfl rfl
  · refine .bind (.modify (.fail (WellFormed.set ?_ member (by exact same) (by exact links))))
    exact cleaned.same ⟨faults, rfl⟩ rfl

/-- `sfs_reclaim` needs the block map of an inode that is not dirty to be on the disk. -/
theorem sfsReclaim_ensures (wf : WellFormed inodes dins vol) (at_ino : vol.inodes ino = some inode)
    (backed : inode.dirty = false → Backed dins vol ino) :
    Ensures (sfsReclaim ino) (fun _ => WellFormed inodes dins) (fun _ => WellFormed inodes dins) vol := by
  obtain ⟨member, same, links⟩ := wf.loaded ino inode at_ino
  refine .bind (ensures_vopCheck fun _ _ _ => .bind (ensures_getInode fun found at_found => ?_))
  obtain rfl := Option.some.inj (at_ino.symm.trans at_found)
  refine .bind (.assert (fun _ => .bind (.modify ?_)) fun _ => trivial)
  have counted : WellFormed inodes dins
      (vol.set ino (some { inode with reclaimCount := inode.reclaimCount - 1 })) :=
    wf.set member (by exact same) (by exact links)
  have at_counted : (vol.set ino (some { inode with reclaimCount := inode.reclaimCount - 1 })).inodes ino = some
      { inode with reclaimCount := inode.reclaimCount - 1 } := set_self _
  split
  · exact .fail counted
  rw [decide_eq_false links]
  refine .bind (.pure (.bind (ensures_getInode fun found at_found => ?_)))
  obtain rfl := Option.some.inj (at_counted.symm.trans at_found)
  have written := sfsFsync_ensures counted at_counted
  refine .bind (.weaken (.onlyIf (fun _ => written) fun clean => ⟨counted, fun clean_backed => clean_backed clean⟩)
    (fun _ after held => .bind (ensures_getInode fun found at_found => ?_)) fun _ _ held => held)
  obtain ⟨wf, now_backed⟩ := held
  rw [decide_eq_false (wf.loaded ino found at_found).2.2]
  exact .bind (.pure (.bind (.assert (fun _ => .modify (wf.drop (now_backed backed))) fun _ => trivial)))

theorem inodeRefInc_ensures (wf : WellFormed inodes dins vol) {bad : Int → Volume → Prop} :
    Ensures (inodeRefInc ino) (fun _ => WellFormed inodes dins) bad vol := by
  refine .bind (ensures_getInode fun inode at_ino => .modify ?_)
  obtain ⟨member, same, links⟩ := wf.loaded ino inode at_ino
  exact wf.set member (by exact same) (by exact links)

/-- With the last reference the inode goes. -/
theorem inodeRefDec_ensures (wf : WellFormed inodes dins vol)
    (backed : ∀ inode, vol.inodes ino = some inode → inode.refCount = 1 → inode.dirty = false → Backed dins vol ino)
    {bad : Int → Volume → Prop} :
    Ensures (inodeRefDec ino) (fun _ => WellFormed inodes dins) bad vol := by
  refine .bind (ensures_getInode fun inode at_ino =>
    .bind (.assert (fun counted => .bind (.modify ?_)) fun _ => trivial))
  obtain ⟨member, same, links⟩ := wf.loaded ino inode at_ino
  have dropped : WellFormed inodes dins (vol.set ino (some { inode with refCount := inode.refCount - 1 })) :=
    wf.set member (by exact same) (by exact links)
  refine .onlyIf (fun last => .bind (.attempt ?_)) fun _ => dropped
  have one : inode.refCount = 1 := by
    simp only [decide_eq_true_eq] at counted last
    omega
  exact (sfsReclaim_ensures dropped (set_self _) (backed inode at_ino one)).weaken (fun _ _ held => .pure held)
    fun _ _ held => .pure held

/-! ## Directories -/

theorem bmapLoad_inside {after : Node} {index ino : Nat} (mounted : Mounted node.fs) (inside : index < node.din.blocks)
    (ran : Returns (bmapLoad index) node ino after) : ino = fileBlock node index ∧
      ∃ faults, after = { node with fs := { node.fs with faults := faults } } := by
  obtain ⟨_, _, got, ran⟩ := returns_bind.mp ran
  obtain ⟨rfl, rfl⟩ := returns_gets.mp got
  obtain ⟨_, _, checked, ran⟩ := returns_bind.mp ran
  obtain ⟨_, rfl⟩ := returns_assert.mp checked
  obtain ⟨_, _, found, rest⟩ := returns_bind.mp ran
  obtain ⟨_, _, checked, more⟩ := returns_bind.mp rest
  obtain ⟨_, rfl⟩ := checkedInuse_returns checked
  obtain ⟨_, _, counted, ending⟩ := returns_bind.mp more
  obtain ⟨rfl, rfl⟩ := returns_pure.mp ending
  rw [decide_eq_false (by omega : ¬ index = node.din.blocks)] at found counted
  rcases returns_onlyIf.mp counted with ⟨never, _⟩ | ⟨_, rfl⟩
  · cases never
  · exact bmapGet_lookup found mounted

/-- Reading a slot of a directory. -/
theorem direntRead_ensures (mounted : Mounted origin.fs) (looked : Looked origin node) :
    Ensures (direntRead slot) (fun entry after => Looked origin after ∧ origin.din.type = .dir ∧
        slot < origin.din.blocks ∧ entry = direntOf (origin.fs.disk (fileBlock origin slot)))
      (fun _ => Looked origin) node := by
  obtain ⟨faults, buf, moved, rfl⟩ := looked
  refine .bind (.gets (.bind (.assert (fun valid => ?_) fun _ => trivial)))
  simp only [Bool.and_eq_true, decide_eq_true_eq] at valid
  obtain ⟨type, inside⟩ := valid
  refine .bind ⟨fun ino after ran => ?_, fun ret after failed => ?_, fun _ => trivial⟩
  · obtain ⟨rfl, faults, rfl⟩ := bmapLoad_inside (by exact mounted.congr rfl rfl) (by exact inside) ran
    refine .bind ⟨fun _ after checked => ?_, fun _ _ failed => absurd failed not_fails_checkedInuse,
      fun _ => trivial⟩
    obtain ⟨_, rfl⟩ := checkedInuse_returns checked
    refine .bind (.within ⟨fun block fs read => ?_, fun ret fs failed => ?_, fun _ => trivial⟩)
    · obtain ⟨rfl, faults, rfl⟩ := rbuf_returns read (by exact mounted.congr rfl rfl)
      exact .pure ⟨⟨faults, buf, moved, rfl⟩, type, inside, rfl⟩
    · obtain ⟨_, faults, rfl⟩ := rbuf_fails (by exact mounted.congr rfl rfl) failed
      exact ⟨faults, buf, moved, rfl⟩
  · obtain ⟨faults, rfl⟩ := bmapLoad_lookup_fails (by exact mounted.congr rfl rfl) (by exact inside) failed
    exact ⟨faults, buf, moved, rfl⟩

/-- A name that is found names one of the entries. -/
theorem direntSearch_ensures (mounted : Mounted origin.fs) (name : List UInt8) (looked : Looked origin node) :
    Ensures (direntSearch name slot more) (fun ino after => Looked origin after ∧ ino ≠ 0 ∧
        origin.din.type = .dir ∧ ∃ i < origin.din.blocks,
          ino = (direntOf (origin.fs.disk (fileBlock origin i))).ino)
      (fun _ => Looked origin) node := by
  induction more generalizing slot node with
  | zero => exact .fail looked
  | succ more ih =>
    refine .bind ((direntRead_ensures mounted looked).weaken (fun entry after held => ?_) fun _ _ held => held)
    obtain ⟨looked, type, inside, same⟩ := held
    split
    · rename_i found
      simp only [Bool.and_eq_true, decide_eq_true_eq] at found
      exact .pure ⟨looked, found.1, type, slot, inside, by rw [same]⟩
    · exact ih looked

theorem Looked.same {m : Node} (looked : Looked (vol.node inode) m) (wf : WellFormed inodes dins vol)
    (at_ino : vol.inodes ino = some inode) : WellFormed inodes dins (vol.put ino inode m) := by
  obtain ⟨faults, buf, moved, rfl⟩ := looked
  refine wf.same ⟨_, rfl⟩ ?_
  exact (Function.update_eq_self_iff).mpr at_ino.symm

/-- `sfs_lookup_once` loads the inode that a directory has under a name. -/
theorem sfsLookupOnce_ensures (name : List UInt8) (wf : WellFormed inodes dins vol) :
    Ensures (sfsLookupOnce dir name) (fun _ => WellFormed inodes dins) (fun _ => WellFormed inodes dins) vol := by
  refine .bind (.assert (fun _ => .bind (ensures_kmalloc fun got kmallocs => ?_)) fun _ => trivial)
  have wf : WellFormed inodes dins { vol with kmallocs := kmallocs } := wf.same ⟨_, rfl⟩ rfl
  cases got with
  | false => exact .fail wf
  | true =>
    refine .bind (ensures_getInode fun inode at_ino => .bind (.bind (ensures_getInode fun again at_again => ?_)))
    obtain rfl := Option.some.inj (at_ino.symm.trans at_again)
    obtain ⟨member, same, _⟩ := wf.loaded dir inode at_ino
    refine .within ((direntSearch_ensures wf.mounted name ⟨_, _, _, rfl⟩).weaken (fun ino m held => ?_)
      fun _ m looked => looked.same wf at_ino)
    obtain ⟨looked, nonzero, type, slot, inside, entry⟩ := held
    have found : ino ∈ inodes := by
      have entries := wf.entries dir member (same.type.symm.trans type) slot (same.blocks ▸ inside)
      rw [← same.map] at entries
      rw [entry] at nonzero ⊢
      exact entries nonzero
    exact .bind ((sfsLoadInode_ensures (looked.same wf at_ino) found).weaken (fun _ _ held => .pure held)
      fun _ _ held => held)

theorem sfsLookup_ensures (path : List UInt8) (wf : WellFormed inodes dins vol) :
    Ensures (sfsLookup dir path) (fun _ => WellFormed inodes dins) (fun _ => WellFormed inodes dins) vol := by
  refine .bind (ensures_vopCheck fun inode at_dir kind => .bind (.assert (fun _ => .bind ?_) fun _ => trivial))
  obtain ⟨member, same, _⟩ := wf.loaded dir inode at_dir
  have type : (dins dir).type = .dir := same.type.symm.trans (of_decide_eq_true kind)
  -- a directory can be given up at any time
  have release : ∀ vol, WellFormed inodes dins vol → ∀ {bad},
      Ensures (inodeRefDec dir) (fun _ => WellFormed inodes dins) bad vol :=
    fun vol wf => inodeRefDec_ensures wf fun _ _ _ _ => wf.stored dir member (.inr type)
  refine (inodeRefInc_ensures wf).weaken (fun _ vol wf => .bind (ensures_getInode fun inode _ => ?_)) fun _ _ held => held
  split
  · exact .bind ((release vol wf).weaken (fun _ _ wf => .fail wf) fun _ _ held => held)
  · refine .bind (.attempt ((sfsLookupOnce_ensures path wf).weaken (fun ino vol wf => ?_) fun ret vol wf => ?_))
    · exact .bind ((release vol wf).weaken (fun _ _ wf => .pure wf) fun _ _ held => held)
    · exact .bind ((release vol wf).weaken (fun _ _ wf => .fail wf) fun _ _ held => held)

theorem sfsGetRoot_ensures (wf : WellFormed inodes dins vol) {bad : Int → Volume → Prop} :
    Ensures sfsGetRoot (fun _ => WellFormed inodes dins) bad vol :=
  .bind (.attempt ((sfsLoadInode_ensures wf wf.root).weaken (fun _ _ wf => .pure wf) fun _ _ _ => .stop trivial))

/-! ## Runs -/

/-- The inodes have block maps that share nothing and that the freemap and the superblock
agree with. -/
def Consistent (inodes : List Nat) (vol : Volume) : Prop := ∃ dins, WellFormed inodes dins vol

/-- The blocks that say where things are: inodes, indirect blocks and directories. -/
def Vital (inodes : List Nat) (vol : Volume) (d : Nat) : Prop :=
  d ∈ inodes ∨ ∃ ino ∈ inodes, ∃ din, vol.dinAt ino = some din ∧ ((din.indirect ≠ 0 ∧ din.indirect = d) ∨
    (din.type = .dir ∧ ∃ slot < din.blocks, fileBlock (fileNode vol.fs din) slot = d))

/-- The block map of an inode in memory is on the disk, too. -/
def Saved (vol : Volume) (ino : Nat) (inode : Inode) : Prop :=
  ∃ read links, dinOf (vol.fs.disk ino) = some (read, links) ∧ SameMap read inode.din

/-- The calls that leak no block and share none. A clean inode may go when its block map is
on the disk: an entry that is added to an indirect block does not make it dirty. -/
def Volume.Permits (inodes : List Nat) (vol : Volume) (access : Access) : Prop :=
  match access.operation with
  | .io ino request => ∀ inode, vol.inodes ino = some inode →
      IoSafe (Vital inodes vol) (Sfs.enter ⟨request, access.answers⟩ (vol.node inode)) request
  | .release ino => ∀ inode, vol.inodes ino = some inode → inode.refCount = 1 → inode.dirty = false →
      Saved vol ino inode
  | _ => True

/-- However the call ends, every block has its owner. -/
def Conserves (inodes : List Nat) (vol : Volume) (access : Access) : Prop :=
  ∀ outcome after, handleAccess access vol = some (outcome, after) → Allocated inodes after

theorem Guarded.vital (wf : WellFormed inodes dins vol) (guarded : Guarded inodes dins vol.fs d) :
    Vital inodes vol d := by
  refine guarded.imp_right ?_
  rintro ⟨ino, member, which⟩
  obtain ⟨din, at_ino, same⟩ := wf.dinAt member
  refine ⟨ino, member, din, at_ino, which.imp ?_ ?_⟩
  · rw [same.indirect]
    exact id
  · rw [same.type, same.blocks]
    rintro ⟨type, slot, below, found⟩
    exact ⟨type, slot, below, (same.map _ _).trans found⟩

theorem IoSafe.weaken {guarded' : Nat → Prop} {request : Request} (safe : IoSafe guarded node request)
    (less : ∀ d, guarded' d → guarded d) : IoSafe guarded' node request := by
  cases request with
  | write offset data len =>
    refine ⟨safe.1, fun j positive below => ?_⟩
    obtain ⟨inside, free⟩ := safe.2 j positive below
    exact ⟨inside, fun guard => free (less _ guard)⟩
  | read offset len => exact safe
  | truncate len => exact safe
  | seek pos => exact safe

theorem sfsServe_ensures {request : Request} (wf : WellFormed inodes dins vol)
    (safe : ∀ inode, vol.inodes ino = some inode → IoSafe (Guarded inodes dins vol.fs)
      (enter ⟨request, vol.fs.faults⟩ (vol.node inode)) request) :
    Ensures (sfsServe ino request) (fun _ => Consistent inodes) (fun _ => Consistent inodes) vol := by
  refine .bind (ensures_vopCheck fun inode at_ino kind => .bind (.modify (.bind (ensures_getInode
    fun again at_again => ?_))))
  obtain rfl := Option.some.inj (at_ino.symm.trans at_again)
  obtain ⟨member, same, _⟩ := wf.loaded ino inode at_ino
  have wf : WellFormed inodes dins { vol with buf := request.buffer vol.buf } := wf.same ⟨_, rfl⟩ rfl
  have file : inode.din.type = .file := of_decide_eq_true kind
  have sound : Sound (Volume.node { vol with buf := request.buffer vol.buf } inode) :=
    (wf.sound ino member).congr same.blocks same.indirect file ⟨rfl, rfl⟩ rfl (same.map vol.fs)
  refine .within ⟨fun result m ran => ?_, fun _ _ failed => absurd failed not_fails_serve, fun _ => trivial⟩
  have here := serve_local sound (safe inode at_ino) (fun present => ?_) ran
  · have counted : Counted m.fs := (keeps_iff.mp (counted_stable.serve request)).1 _ wf.counted _ _ ran
    exact ⟨_, wf.local at_ino file counted here⟩
  · refine .inr ⟨ino, member, .inl ?_⟩
    rw [← same.indirect]
    exact ⟨present, rfl⟩

/-- However a permitted call ends, the inodes have block maps that share nothing. -/
theorem handleAccess_ensures {access : Access} (wf : WellFormed inodes dins vol)
    (permits : Volume.Permits inodes vol access) :
    Ensures (handleAccess access) (fun _ => Consistent inodes) (fun _ => Consistent inodes) vol := by
  refine .bind (.modify ?_)
  have entered : WellFormed inodes dins (vol.enter access) := wf.same ⟨_, rfl⟩ rfl
  obtain ⟨operation, answers, kmallocs⟩ := access
  cases operation with
  | io ino request =>
    have safe := fun inode at_ino => (permits inode at_ino).weaken fun d guarded => Guarded.vital wf guarded
    exact .bind ((sfsServe_ensures entered safe).weaken (fun _ _ held => .pure held) fun _ _ held => held)
  | lookup dir path =>
    exact .bind ((sfsLookup_ensures path entered).weaken (fun _ _ held => .pure ⟨dins, held⟩) fun _ _ held => ⟨dins, held⟩)
  | root => exact .bind ((sfsGetRoot_ensures entered).weaken (fun _ _ held => .pure ⟨dins, held⟩) fun _ _ held => held)
  | fsync ino =>
    cases at_ino : (vol.enter ⟨.fsync ino, answers, kmallocs⟩).inodes ino with
    | none =>
      refine .bind (ensures_vopCheck fun inode found _ => ?_)
      rw [at_ino] at found
      cases found
    | some inode =>
      exact (sfsFsync_ensures entered at_ino).weaken (fun _ _ held => ⟨dins, held.1⟩) fun _ _ held => ⟨dins, held⟩
  | hold ino => exact (inodeRefInc_ensures entered).weaken (fun _ _ held => ⟨dins, held⟩) fun _ _ held => held
  | release ino =>
    refine (inodeRefDec_ensures entered fun inode at_ino one clean => ?_).weaken (fun _ _ held => ⟨dins, held⟩)
      fun _ _ held => held
    obtain ⟨read, links, found, same⟩ := permits inode at_ino one clean
    exact ⟨read, links, found, same.trans (wf.loaded ino inode at_ino).2.1⟩

/-- In every run of permitted calls the count of free blocks is right and every block in use
is fixed or has one owner, also behind the calls that fail. -/
theorem blocks_allocated {accesses : List Access} (consistent : Consistent inodes vol)
    (along : Along Volume.step (Volume.Permits inodes) vol accesses) :
    Along Volume.step (Conserves inodes) vol accesses := by
  have keeps : ∀ vol access, Consistent inodes vol → Volume.Permits inodes vol access →
      Conserves inodes vol access ∧ ∀ after, Volume.step vol access = some after → Consistent inodes after := by
    rintro vol access ⟨dins, wf⟩ permits
    have ensures := handleAccess_ensures wf permits
    have kept : ∀ outcome after, handleAccess access vol = some (outcome, after) → Consistent inodes after := by
      rintro (ret | value) after ran
      · exact ensures.fails _ _ ran
      · exact ensures.returns _ _ ran
    refine ⟨fun outcome after ran => ?_, fun after stepped => ?_⟩
    · obtain ⟨_, wf⟩ := kept outcome after ran
      exact wf.allocated
    · obtain ⟨⟨outcome, _⟩, ran, rfl⟩ := Option.map_eq_some_iff.mp stepped
      exact kept outcome _ ran
  exact along_of_invariant keeps consistent along

/-- The root directory in block 1, an empty file in block 3. -/
def smallDins (ino : Nat) : DiskInode where
  size := if ino = 1 then 4096 else 0
  type := if ino = 1 then .dir else .file
  blocks := if ino = 1 then 1 else 0
  direct := fun i => if ino = 1 ∧ i = 0 then 4 else 0
  indirect := 0

/-- A disk with these inodes, the file in the directory, and one free block. -/
def smallDisk : Volume where
  fs := {
    blocks := 6
    unusedBlocks := 1
    superDirty := false
    freemap := fun blkno => decide (blkno = 5)
    disk := fun blkno =>
      if blkno = 1 then overlay (fun _ => 0) (dinBytes (smallDins 1) 1) dinSize 0
      else if blkno = 4 then fun i => if i = 0 then 3 else if i = 4 then 0x66 else 0
      else fun _ => 0
    dBlocks := 6
    faults := fun _ _ _ => none }
  inodes := fun ino => if ino = 1 ∨ ino = 3 then some ⟨smallDins ino, 1, false, 1, 1, 0⟩ else none
  kmallocs := fun _ => true
  buf := fun _ => 0

theorem smallDisk_fixed : Fixed smallDisk.fs d ↔ d = 0 ∨ (2 ≤ d ∧ d < 3) := Iff.rfl

theorem smallDins_block (i : Nat) :
    fileBlock (fileNode smallDisk.fs (smallDins ino)) i = if ino = 1 ∧ i = 0 then 4 else 0 := by
  by_cases direct : i < ndirect
  · exact fileBlock_direct direct
  · rw [fileBlock_absent direct rfl, if_neg]
    rintro ⟨_, rfl⟩
    exact direct (by decide)

theorem smallDins_maps : Maps (fileNode smallDisk.fs (smallDins ino)) d ↔ ino = 1 ∧ d = 4 := by
  constructor
  · rintro (⟨i, below, same⟩ | ⟨present, _⟩)
    · rw [smallDins_block] at same
      simp only [fileNode, smallDins] at below
      by_cases root : ino = 1
      · rw [if_pos root] at below
        rw [if_pos ⟨root, by omega⟩] at same
        exact ⟨root, same.symm⟩
      · rw [if_neg root] at below
        omega
    · exact absurd rfl present
  · rintro ⟨rfl, rfl⟩
    exact .inl ⟨0, by decide, rfl⟩

theorem smallDins_sound : Sound (fileNode smallDisk.fs (smallDins ino)) := by
  have blocks : (fileNode smallDisk.fs (smallDins ino)).din.blocks = if ino = 1 then 1 else 0 := rfl
  have first : ∀ i < (fileNode smallDisk.fs (smallDins ino)).din.blocks, ino = 1 ∧ i = 0 := by
    intro i below
    rw [blocks] at below
    split at below
    · exact ⟨by assumption, by omega⟩
    · omega
  refine ⟨⟨Nat.le_refl 6, show 6 < 2 ^ 20 by decide⟩, FileType.noConfusion, ?_, fun i below => ?_,
    fun i below j below' _ => ?_, fun i above _ => ?_, fun present => absurd rfl present⟩
  · rw [blocks]
    split <;> decide
  · rw [smallDins_block, if_pos (first i below)]
    exact ⟨by decide, show 4 < 6 by decide, rfl⟩
  · rw [(first i below).2, (first j below').2]
  · rw [smallDins_block, if_neg]
    rintro ⟨root, rfl⟩
    rw [blocks, if_pos root] at above
    cases above

theorem smallDisk_consistent : Consistent [1, 3] smallDisk := by
  refine ⟨smallDins, ?_, by decide, by decide, fun ino inode at_ino => ?_, fun ino member which => ?_,
    fun ino _ => smallDins_sound, fun ino member => ⟨?_, ?_⟩, ?_, ?_, ?_⟩
  · have one : freeSet smallDisk.fs = {5} := by
      ext d
      rw [mem_freeSet, Finset.mem_singleton]
      refine ⟨fun free => of_decide_eq_true free.2, ?_⟩
      rintro rfl
      exact ⟨by decide, by decide⟩
    rw [Counted, one]
    rfl
  · simp only [smallDisk] at at_ino
    split at at_ino
    · rename_i which
      obtain rfl := Option.some.inj at_ino
      exact ⟨by simpa using which, .refl _, Nat.one_ne_zero⟩
    · cases at_ino
  · have root : ino = 1 := by
      simp only [List.mem_cons, List.not_mem_nil, or_false] at member
      rcases which with absent | dir
      · have loaded : smallDisk.inodes ino = some ⟨smallDins ino, 1, false, 1, 1, 0⟩ := if_pos member
        rw [loaded] at absent
        cases absent
      · by_contra other
        have file : (smallDins ino).type = .file := if_neg other
        rw [file] at dir
        cases dir
    subst root
    have small : ∀ i < ndirect, (smallDins 1).direct i < 2 ^ 32 := by decide
    obtain ⟨read, links, found, same⟩ := dinOf_dinBytes (fun _ => 0) 1
      (show (smallDins 1).blocks < 2 ^ 32 by decide) small (by decide)
    exact ⟨read, links, found, same⟩
  · simp only [List.mem_cons, List.not_mem_nil, or_false] at member
    rcases member with rfl | rfl
    · exact ⟨by decide, by decide, rfl⟩
    · exact ⟨by decide, by decide, rfl⟩
  · rw [smallDins_maps]
    rintro ⟨rfl, never⟩
    cases never
  · intro ino member other member' d own own'
    simp only [Owns, smallDins_maps, List.mem_cons, List.not_mem_nil, or_false] at *
    omega
  · intro d below used
    have small : d < 6 := below
    have other : d ≠ 5 := of_decide_eq_false used
    rw [smallDisk_fixed]
    simp only [Owns, smallDins_maps, List.mem_cons, List.not_mem_nil, or_false, exists_eq_or_imp, exists_eq_left, true_and]
    omega
  · intro dir member type slot below
    have root : dir = 1 := by
      by_contra other
      have file : (smallDins dir).type = .file := if_neg other
      rw [file] at type
      cases type
    subst root
    obtain rfl : slot = 0 := Nat.lt_one_iff.mp below
    intro _
    decide +kernel

/-- The file gets a block, and is looked up. -/
def growAndLookup : List Access :=
  [⟨.io 3 (.truncate 100), fun _ _ _ => none, fun _ => true⟩, ⟨.lookup 1 [0x66], fun _ _ _ => none, fun _ => true⟩]

theorem growAndLookup_allocated : Along Volume.step (Conserves [1, 3]) smallDisk growAndLookup :=
  blocks_allocated smallDisk_consistent
    ⟨fun _ _ _ _ _ _ _ _ => rfl, fun _ _ => ⟨trivial, fun _ _ => trivial⟩⟩

/-- The device refuses to clear the new block: it stays in use and is nobody's. -/
theorem refused_block_leaks : Consistent [1, 3] smallDisk ∧ ¬ Along Volume.step (Conserves [1, 3]) smallDisk
    [⟨.io 3 (.truncate 100), fun _ _ write => if write then some (-eInval) else none, fun _ => true⟩] := by
  refine ⟨smallDisk_consistent, fun along => ?_⟩
  obtain ⟨after, ran, seen⟩ : ∃ after, Returns (handleAccess
      ⟨.io 3 (.truncate 100), fun _ _ write => if write then some (-eInval) else none, fun _ => true⟩)
        smallDisk () after ∧
      (after.fs.blocks, after.fs.freemap 5, references after 1, references after 3) = (6, false, [1, 4], [3]) :=
    exists_returns (fun after : Volume => (after.fs.blocks, after.fs.freemap 5, references after 1,
      references after 3)) (by decide +kernel)
  simp only [Prod.mk.injEq] at seen
  obtain ⟨blocks, used, root, file⟩ := seen
  rcases (along.1 _ _ ran).owned 5 (by omega) used with fixed | ⟨ino, member, refers⟩
  · rw [Fixed, blocks] at fixed
    exact absurd fixed (by decide)
  · simp only [List.mem_cons, List.not_mem_nil, or_false] at member
    rcases member with rfl | rfl
    · rw [root] at refers
      exact absurd refers (by decide)
    · rw [file] at refers
      exact absurd refers (by decide)

end Ucore.Sfs
