import Ucore.VfsLookupProofs

/-! `vfs_getcwd` writes the name of the device, a colon and the path of the current
directory. Given to `vfs_lookup`, that text leads back to the root and to no other
directory, since what follows the colon is looked up as one name. -/
namespace Ucore.VfsLookup
open Call Sfs

variable {naming : Naming} {iob : Iobuf} {data devname : List UInt8} {names : List (List UInt8)} {dirs : Nat → Prop} {dir : Nat}
  {parent : Nat → Nat} {nameOf : Nat → List UInt8} {vol : Volume} {inode : Inode} {buf : Nat → UInt8} {turns entries : Nat}

/-! ## The text -/

/-- What is written for a directory with this path on a device. -/
def cwdText (devname : List UInt8) (names : List (List UInt8)) : List UInt8 := devname ++ [colon] ++ pathOf names

theorem iobufMove_settles (iob : Iobuf) (data : List UInt8) :
    Settles (iobufMove iob data)
      (fun iob' after => iob' = ⟨iob.base + data.length, toOff (iob.offset + data.length), iob.resid - data.length⟩ ∧
        data.length ≤ iob.resid ∧ after = ⟨naming.vol.wrote (stored naming.vol.buf iob.base data), naming.entries⟩)
      (fun ret after => ret = -eNoMem ∧ iob.resid < data.length ∧ ∃ buf, after = ⟨naming.vol.wrote buf, naming.entries⟩) False naming := by
  refine .bind (store_settles (.bind (.bind (.assert (fun _ => .pure ?_) ?_))))
  · split
    · rename_i fits
      rw [Nat.min_eq_right fits, List.take_of_length_le fits]
      exact .pure ⟨rfl, fits, rfl⟩
    · rename_i short
      exact .fail ⟨rfl, Nat.lt_of_not_le short, _, rfl⟩
  · intro beyond
    exact absurd (Nat.min_le_left _ _) (of_decide_eq_false beyond)

theorem vopNamefile_settles {names : List (List UInt8)} (tree : Tree vol dirs blknRoot parent nameOf)
    (path : PathTo blknRoot parent nameOf dir names) (member : dirs dir) (directory : Directory vol dir inode)
    (enough : names.length < turns) :
    Settles (vopNamefile turns dir iob)
      (fun _ after => Restored ⟨vol.reading dir inode buf, entries⟩ iob after ∧ Stored after.vol.buf iob.base (pathOf names ++ [0]))
      (fun ret after => (ret = -eNoMem ∧ iob.resid ≤ (pathOf names).length + 1 ∨ Refused vol ret) ∧
        Restored ⟨vol.reading dir inode buf, entries⟩ iob after) False ⟨vol.reading dir inode buf, entries⟩ := by
  have loaded : (vol.reading dir inode buf).inodes dir = some inode := Function.update_self _ _ _
  refine .bind (.within ((directory.check loaded).weaken ?_ fun _ _ failed => failed))
  rintro ⟨⟩ _ rfl
  by_cases large : 2 < iob.resid
  · have writes : WritesPath ⟨vol.reading dir inode buf, entries⟩ turns dir iob names :=
      sfsNamefile_settles (tree.reading directory.readable) path member loaded enough large
    refine Settles.weaken writes ?_ ?_
    · rintro got after ⟨-, restored, is_stored, -⟩
      exact ⟨restored, is_stored⟩
    · rintro ret after ⟨restored, failed⟩
      refine ⟨failed.imp_left fun short => ⟨short.1, ?_⟩, restored⟩
      have short := short.2
      rw [HasRoom] at short
      omega
  · rw [sfsNamefile, if_pos (Nat.le_of_not_lt large)]
    refine .fail ⟨.inl ⟨rfl, ?_⟩, ⟨rfl, rfl, fun _ _ => rfl⟩⟩
    rw [pathOf, List.length_cons]
    omega

/-- The inodes in memory and the entry buffers are those of before. -/
def Undisturbed (naming after : Naming) : Prop := after.vol.inodes = naming.vol.inodes ∧ after.entries = naming.entries

/-- The three moves put the text and a zero in the buffer, unless it is too small for more than them. -/
theorem getcwdMoves_settles {names : List (List UInt8)} (tree : Tree vol dirs blknRoot parent nameOf)
    (path : PathTo blknRoot parent nameOf dir names) (member : dirs dir) (directory : Directory vol dir inode)
    (enough : names.length < turns) (devname : List UInt8) (iob : Iobuf) :
    Settles (getcwdMoves turns dir devname iob)
      (fun _ after => Undisturbed ⟨vol.reading dir inode buf, entries⟩ after ∧ Stored after.vol.buf iob.base (cwdText devname names ++ [0]))
      (fun ret after => (ret = -eNoMem ∧ iob.resid ≤ (cwdText devname names).length + 1 ∨ Refused vol ret) ∧
        Undisturbed ⟨vol.reading dir inode buf, entries⟩ after) False ⟨vol.reading dir inode buf, entries⟩ := by
  have length : (cwdText devname names).length = devname.length + 1 + (pathOf names).length := by
    rw [cwdText, List.length_append, List.length_append, List.length_singleton]
  refine .bind ((iobufMove_settles iob devname).weaken ?_ ?_)
  swap
  · rintro ret after ⟨rfl, short, _, rfl⟩
    exact ⟨.inl ⟨rfl, by omega⟩, rfl, rfl⟩
  rintro _ _ ⟨rfl, fits, rfl⟩
  refine .bind ((iobufMove_settles _ [colon]).weaken ?_ ?_)
  swap
  · rintro ret after ⟨rfl, short, _, rfl⟩
    rw [List.length_singleton] at short
    dsimp only at short
    exact ⟨.inl ⟨rfl, by omega⟩, rfl, rfl⟩
  rintro _ _ ⟨rfl, colon_fits, rfl⟩
  rw [List.length_singleton] at colon_fits ⊢
  dsimp only at colon_fits ⊢
  have front : Stored (stored (stored buf iob.base devname) (iob.base + devname.length) [colon]) iob.base (devname ++ [colon]) := by
    apply Stored.append
    · apply stored_inside.congr
      intro i _ before
      exact stored_outside (.inl before)
    · exact stored_inside
  have names_written := @vopNamefile_settles ⟨iob.base + devname.length + 1, toOff (toOff (iob.offset + devname.length) + (1 : Nat)),
    iob.resid - devname.length - 1⟩ dirs dir parent nameOf vol inode (stored (stored buf iob.base devname) (iob.base + devname.length) [colon])
    turns entries names tree path member directory enough
  refine Settles.weaken names_written ?_ ?_
  · rintro got after ⟨restored, is_stored⟩
    refine ⟨⟨restored.inodes, restored.entries⟩, ?_⟩
    rw [cwdText, List.append_assoc]
    apply Stored.append
    · apply front.congr
      intro i _ before
      rw [List.length_append, List.length_singleton] at before
      exact restored.around i (.inl (by dsimp only; omega))
    · rwa [List.length_append, List.length_singleton, ← Nat.add_assoc]
  · rintro ret after ⟨failed, restored⟩
    refine ⟨failed.imp_left fun short => ⟨short.1, ?_⟩, restored.inodes, restored.entries⟩
    have short := short.2
    dsimp only at short
    omega

/-! ## And back -/

variable {vfs : Vfs} {fs : Nat}

/-- The device of a file system is the only one of its name, and the name has no mark of a path in it. -/
structure OnDevice (vfs : Vfs) (fs : Nat) (devname : List UInt8) : Prop where
  found : vfsGetDevname vfs.vdevList fs = some devname
  alone : (vfs.vdevList.map (·.devname)).Nodup
  some_name : devname ≠ []
  letters : ∀ c ∈ devname, plain c = true ∧ c ≠ 0

/-- The names in these directories are not empty and have no slash. -/
def ProperNames (vol : Volume) (dirs : Nat → Prop) : Prop :=
  ∀ dir, dirs dir → ∀ entry ∈ entriesOf vol dir, entry.name ≠ [] ∧ slash ∉ entry.name

/-- The name of a mounted device leads to the root on it. -/
theorem OnDevice.begins (device : OnDevice vfs fs devname) : vfs.begins (.named devname) = .ok (.sfs fs blknRoot) := by
  obtain ⟨vdev, found, rfl⟩ := Option.map_eq_some_iff.mp device.found
  have mounted := of_decide_eq_true (List.find?_some (p := fun vdev : Vdev => decide (vdev.fs = some fs)) found)
  have member := List.mem_of_find?_eq_some found
  obtain ⟨other, inside, named, same⟩ := exists_find (p := fun other : Vdev => decide (vdev.devname = other.devname))
    ⟨vdev, member, decide_eq_true rfl⟩
  have same_vdev : other = vdev := List.inj_on_of_nodup_map device.alone inside member (of_decide_eq_true same).symm
  rw [Vfs.begins, named, Option.elim_some, same_vdev, Vdev.root, mounted]

theorem root_member (tree : Tree vol dirs blknRoot parent nameOf) (path : PathTo blknRoot parent nameOf dir names) (member : dirs dir) :
    dirs blknRoot := by
  induction path with
  | root => exact member
  | child below path ih => exact ih (tree.up _ member)

theorem path_proper (tree : Tree vol dirs blknRoot parent nameOf) (proper : ProperNames vol dirs)
    (path : PathTo blknRoot parent nameOf dir names) (member : dirs dir) :
    ∀ name ∈ names, name ≠ [] ∧ slash ∉ name ∧ ∀ c ∈ name, c ≠ 0 := by
  induction path with
  | root => nofun
  | @child dir names below path ih =>
    have above := tree.up dir member
    intro name inside
    rcases List.mem_append.mp inside with before | last
    · exact ih above name before
    · obtain rfl := List.mem_singleton.mp last
      obtain ⟨⟨entry, listed, same⟩, named⟩ := tree.named dir member below
      rw [← named entry listed same]
      exact ⟨(proper _ above entry listed).1, (proper _ above entry listed).2, entriesOf_zero listed⟩

theorem skipSlashes_pathOf (proper : ∀ name ∈ names, name ≠ [] ∧ slash ∉ name) : skipSlashes (pathOf names) = pathText names := by
  rw [skipSlashes, pathOf, List.dropWhile_cons_of_pos (by simp)]
  cases names with
  | nil => rfl
  | cons name names =>
    obtain ⟨some_name, no_slash⟩ := proper name List.mem_cons_self
    obtain ⟨c, rest, rfl⟩ := List.exists_cons_of_ne_nil some_name
    have other : c ≠ slash := fun same => no_slash (same ▸ List.mem_cons_self)
    simp [pathText, other]

theorem parts_cwdText (some_name : devname ≠ []) (letters : ∀ c ∈ devname, plain c = true) :
    parts (cwdText devname names) = (.named devname, skipSlashes (pathOf names)) := by
  have front : (cwdText devname names).takeWhile plain = devname := by
    rw [cwdText, List.append_assoc, List.takeWhile_append_of_pos letters]
    simp [plain]
  have rest : (cwdText devname names).dropWhile plain = colon :: pathOf names := by
    rw [cwdText, List.append_assoc, List.dropWhile_append_of_pos letters]
    simp [plain]
  rw [parts, rest, front, List.head?_cons, if_pos rfl, if_neg some_name]
  rfl

/-- Behind the colon the whole path is one name, which no entry of the root has. -/
theorem leadsTo_cwdText (device : OnDevice vfs fs devname) (proper : ∀ name ∈ names, name ≠ [] ∧ slash ∉ name)
    (top : ∀ entry ∈ entriesOf (vfs.volumes fs) blknRoot, slash ∉ entry.name) :
    vfs.leadsTo (cwdText devname names) =
      if names = [] then some (.ok (.sfs fs blknRoot))
      else if maxFnameLen < (pathText names).length then none
      else some (.error (-eNoEnt)) := by
  rw [Vfs.leadsTo, parts_cwdText device.some_name fun c member => (device.letters c member).1, skipSlashes_pathOf proper]
  dsimp only
  rw [device.begins]
  dsimp only
  by_cases at_root : names = []
  · subst names
    rfl
  · have some_text : pathText names ≠ [] := by
      obtain ⟨name, rest, rfl⟩ := List.exists_cons_of_ne_nil at_root
      simp [pathText]
    have slash_inside : slash ∈ pathText names := by
      obtain ⟨name, rest, rfl⟩ := List.exists_cons_of_ne_nil at_root
      simp [pathText]
    have missing : entryNamed (vfs.volumes fs) blknRoot (pathText names) = none := by
      refine List.find?_eq_none.mpr fun entry member same => top entry member ?_
      rw [of_decide_eq_true same]
      exact slash_inside
    rw [if_neg some_text, if_neg at_root, Vfs.named, missing]
    rfl

theorem cwdText_letters (devname_letters : ∀ c ∈ devname, c ≠ 0) (names_letters : ∀ name ∈ names, ∀ c ∈ name, c ≠ 0) :
    ∀ c ∈ cwdText devname names, c ≠ 0 := by
  intro c member
  simp only [cwdText, pathOf, pathText, List.mem_append, List.mem_cons, List.not_mem_nil, or_false, List.mem_flatten, List.mem_map] at member
  rcases member with (letter | rfl) | rfl | ⟨_, ⟨name, inside, rfl⟩, letter⟩
  · exact devname_letters c letter
  · decide
  · decide
  · rcases List.mem_append.mp letter with letter | letter
    · exact names_letters name inside c letter
    · rw [List.mem_singleton.mp letter]
      decide

theorem lookup_cwdText (sound : Sound vfs) (device : OnDevice vfs fs devname) (path : PathTo blknRoot parent nameOf dir names)
    (proper : ∀ name ∈ names, name ≠ [] ∧ slash ∉ name)
    (top : ∀ entry ∈ entriesOf (vfs.volumes fs) blknRoot, slash ∉ entry.name) :
    Settles (vfsLookup (cwdText devname names)) (fun node found => dir = blknRoot ∧ node = .sfs fs dir ∧ Gained vfs node found)
      (fun ret found => (dir ≠ blknRoot ∧ ret = -eNoEnt ∨ Denied vfs ret) ∧ Unchanged vfs found)
      (dir ≠ blknRoot ∧ maxFnameLen < (cwdText devname names).length ∨ RootDenied vfs) vfs := by
  have settles := vfsLookup_settles sound (cwdText devname names)
  rw [leadsTo_cwdText device proper top] at settles
  by_cases at_root : dir = blknRoot
  · subst dir
    rw [if_pos path.of_root] at settles
    refine (settles.weaken ?_ ?_).halts ?_
    · rintro node found ⟨leads, gained⟩
      cases leads
      exact ⟨rfl, rfl, gained⟩
    · rintro ret found ⟨leads | denied, same⟩
      · cases leads
      · exact ⟨.inr denied, same⟩
    · rintro (leads | denied)
      · cases leads
      · exact .inr denied
  · have below : names ≠ [] := by
      rintro rfl
      exact absurd (path.text_length at_root) (by simp [pathText])
    rw [if_neg below] at settles
    by_cases long : maxFnameLen < (pathText names).length
    · rw [if_pos long] at settles
      refine (settles.weaken ?_ ?_).halts ?_
      · rintro node found ⟨leads, -⟩
        cases leads
      · rintro ret found ⟨leads | denied, same⟩
        · cases leads
        · exact ⟨.inr denied, same⟩
      · rintro (- | denied)
        · refine .inl ⟨at_root, long.trans_le ?_⟩
          rw [cwdText, List.length_append, pathOf, List.length_cons]
          omega
        · exact .inr denied
    · rw [if_neg long] at settles
      refine (settles.weaken ?_ ?_).halts ?_
      · rintro node found ⟨leads, -⟩
        cases leads
      · rintro ret found ⟨leads | denied, same⟩
        · cases leads
          exact ⟨.inl ⟨at_root, rfl⟩, same⟩
        · exact ⟨.inr denied, same⟩
      · rintro (leads | denied)
        · cases leads
        · exact .inr denied

/-- What `vfs_getcwd` writes ends with a zero and leads back to the current directory if that is the root. From every
other directory the text is refused as the name of no entry, or stops the system where it is too long for a name. -/
theorem getcwd_leads_back_iff (vfs : Vfs) (sound : Sound vfs) (fs : Nat) (devname : List UInt8) (device : OnDevice vfs fs devname)
    (dirs : Nat → Prop) (parent : Nat → Nat) (name : Nat → List UInt8) (tree : Tree (vfs.volumes fs) dirs blknRoot parent name)
    (proper : ProperNames (vfs.volumes fs) dirs) (dir : Nat) (member : dirs dir) (current : vfs.pwd = some (.sfs fs dir)) :
    ∃ names, PathTo blknRoot parent name dir names ∧ ∀ turns, names.length < turns → ∀ iob entries,
      Settles (vfsGetcwd turns iob)
        (fun _ after => ∃ text, (∀ c ∈ text, c ≠ 0) ∧ Stored (after.vfs.volumes fs).buf iob.base (text ++ [0]) ∧
          Settles (vfsLookup text) (fun node found => dir = blknRoot ∧ node = .sfs fs dir ∧ Gained vfs node found)
            (fun ret found => (dir ≠ blknRoot ∧ ret = -eNoEnt ∨ Denied vfs ret) ∧ Unchanged vfs found)
            (dir ≠ blknRoot ∧ maxFnameLen < text.length ∨ RootDenied vfs) vfs)
        (fun ret after => (ret = -eNoMem ∧ iob.resid ≤ (cwdText devname names).length + 1 ∨ Denied vfs ret) ∧
          after.entries = entries ∧ (after.vfs.volumes fs).inodes = (vfs.volumes fs).inodes) False ⟨vfs, entries⟩ := by
  obtain ⟨names, path⟩ := tree.rooted dir member
  obtain ⟨_, _, inode, root, same, loaded, directory, -⟩ := sound.current _ current
  cases same
  refine ⟨names, path, fun turns enough iob entries => ?_⟩
  refine .bind (.within ((vfsGetCurdir_holds loaded current).weaken ?_ fun _ _ failed => failed))
  rintro _ _ ⟨rfl, rfl⟩
  refine .bind (.gets ?_)
  have found : vfsGetDevname (vfs.setVolume fs ((vfs.volumes fs).set dir (held (vfs.volumes fs) dir))).vdevList fs = some devname := device.found
  rw [found, directory.readable.retained]
  have moves := @getcwdMoves_settles dirs dir parent name (vfs.volumes fs) inode (vfs.volumes fs).buf turns entries names
    tree path member directory enough devname iob
  have letters_proper := path_proper tree proper path member
  have top : dirs blknRoot := root_member tree path member
  -- the reference that `vfs_get_curdir` has taken is given back on every way out
  have out {post : Unit → Process → Prop} {bad : Int → Process → Prop} {naming : Naming}
      (undisturbed : Undisturbed ⟨(vfs.volumes fs).reading dir inode (vfs.volumes fs).buf, entries⟩ naming)
      (next : ∀ vol, vol.inodes = (vfs.volumes fs).inodes → vol.buf = naming.vol.buf → post () ⟨vfs.setVolume fs vol, naming.entries⟩) :
      Settles (onVfs (vopRefDec (.sfs fs dir))) post bad False ⟨vfs.setVolume fs naming.vol, naming.entries⟩ := by
    have here : naming.vol.inodes dir = some inode := by
      rw [undisturbed.1]
      exact Function.update_self _ _ _
    refine .within (onVolume_later ((inodeRefDec_settles directory.readable here).weaken ?_ fun _ _ failed => failed))
    rintro ⟨⟩ _ rfl
    refine next _ ?_ rfl
    change Function.update naming.vol.inodes dir ((vfs.volumes fs).inodes dir) = (vfs.volumes fs).inodes
    rw [undisturbed.1]
    exact (Function.update_idem _ _ _).trans (Function.update_eq_self _ _)
  refine .bind (.attempt (.within ?_))
  dsimp only
  rw [setVolume_volumes]
  refine Settles.weaken moves ?_ ?_
  · rintro got naming ⟨undisturbed, is_stored⟩
    rw [setVolume_twice]
    refine .bind (out undisturbed fun vol inodes bytes => .pure ⟨cwdText devname names, ?_, ?_, ?_⟩)
    · exact cwdText_letters (fun c letter => (device.letters c letter).2) fun name inside => (letters_proper name inside).2.2
    · rw [setVolume_volumes, bytes]
      exact is_stored
    · exact lookup_cwdText sound device path (fun name inside => ⟨(letters_proper name inside).1, (letters_proper name inside).2.1⟩)
        fun entry listed => (proper _ top entry listed).2
  · rintro ret naming ⟨failed, undisturbed⟩
    rw [setVolume_twice]
    refine .bind (out undisturbed fun vol inodes _ => .fail ⟨failed.imp_right fun refused => ⟨fs, refused⟩, undisturbed.2, ?_⟩)
    rw [setVolume_volumes, inodes]

/-- From a directory below the root. -/
theorem subdirectory_not_found : ∃ names, PathTo blknRoot (fun _ => 1) (fun _ => [0x61, 0x62]) 3 names ∧
    ∀ turns, names.length < turns → ∀ iob entries,
      Settles (vfsGetcwd turns iob)
        (fun _ after => ∃ text, (∀ c ∈ text, c ≠ 0) ∧ Stored (after.vfs.volumes 0).buf iob.base (text ++ [0]) ∧
          Settles (vfsLookup text) (fun node found => 3 = blknRoot ∧ node = .sfs 0 3 ∧ Gained treeVfs node found)
            (fun ret found => (3 ≠ blknRoot ∧ ret = -eNoEnt ∨ Denied treeVfs ret) ∧ Unchanged treeVfs found)
            (3 ≠ blknRoot ∧ maxFnameLen < text.length ∨ RootDenied treeVfs) treeVfs)
        (fun ret after => (ret = -eNoMem ∧ iob.resid ≤ (cwdText disk0 names).length + 1 ∨ Denied treeVfs ret) ∧
          after.entries = entries ∧ (after.vfs.volumes 0).inodes = treeDisk.inodes) False ⟨treeVfs, entries⟩ := by
  obtain ⟨top, sub⟩ := treeDisk_entries
  refine getcwd_leads_back_iff treeVfs treeVfs_sound 0 disk0 ⟨rfl, by decide, by decide, by decide +kernel⟩ (fun dir => dir = 1 ∨ dir = 3)
    (fun _ => 1) (fun _ => [0x61, 0x62]) treeDisk_tree ?_ 3 (.inr rfl) rfl
  rintro dir (rfl | rfl)
  · exact forall_listed top (p := fun _ name => name ≠ [] ∧ slash ∉ name) (by decide)
  · exact forall_listed sub (p := fun _ name => name ≠ [] ∧ slash ∉ name) (by decide)

end Ucore.VfsLookup
