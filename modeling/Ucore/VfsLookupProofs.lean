import Ucore.SfsLookupProofs
import Ucore.VfsLookup

/-! What a path leads to. Behind the device or the slashes in front of it, the rest of
a path is one name, that of an entry of the directory the lookup starts from. So no
path of more than one name is found, and the path `vfs_getcwd` writes is one only at
the root. -/
namespace Ucore.VfsLookup
open Call Sfs

/-! ## The forms of a path -/

/-- What the rest of a path is relative to. -/
inductive Start where
  | current
  | boot
  | currentRoot
  | named (devname : List UInt8)

/-- A byte that `get_device` goes past. -/
def plain (c : UInt8) : Bool := c ≠ colon && c ≠ slash

/-- The four forms: `dev:path`, `:path`, `/path` and `path`. -/
def parts (path : List UInt8) : Start × List UInt8 :=
  if (path.dropWhile plain).head? = some colon then
    (if path.takeWhile plain = [] then .currentRoot else .named (path.takeWhile plain), skipSlashes ((path.dropWhile plain).drop 1))
  else if (path.dropWhile plain).head? = some slash ∧ path.takeWhile plain = [] then (.boot, skipSlashes ((path.dropWhile plain).drop 1))
  else (.current, path)

def enter : Start → Call Vfs Vnode
  | .current => vfsGetCurdir
  | .boot => vfsGetBootfs
  | .currentRoot => currentRoot
  | .named devname => vfsGetRoot devname

variable {path front : List UInt8}

theorem findMark_front (all_plain : ∀ c ∈ front, plain c = true) (i : Int) (rest : List UInt8) :
    findMark i (front ++ rest) = findMark (i + front.length) rest := by
  induction front generalizing i with
  | nil => simp
  | cons c front ih =>
    have here := all_plain c List.mem_cons_self
    rw [plain, Bool.and_eq_true, decide_eq_true_eq, decide_eq_true_eq] at here
    rw [List.cons_append, findMark, if_neg here.1, if_neg here.2, ih fun c later => all_plain c (List.mem_cons_of_mem _ later)]
    congr 1
    push_cast [List.length_cons]
    ring

theorem getDevice_eq (path : List UInt8) :
    getDevice path = do
      let node ← enter (parts path).1
      return ((parts path).2, node) := by
  generalize split_front : path.takeWhile plain = front
  generalize split_rest : path.dropWhile plain = rest
  have whole : path = front ++ rest := by rw [← split_front, ← split_rest, List.takeWhile_append_dropWhile]
  have all_plain : ∀ c ∈ front, plain c = true := by
    rw [← split_front]
    exact fun c member => List.mem_takeWhile_imp member
  have marked : ∀ c, rest.head? = some c → plain c = false := by
    rw [← split_rest]
    exact fun c first => by simpa [first] using List.head?_dropWhile_not plain path
  have mark := findMark_front all_plain 0 rest
  rw [Int.zero_add] at mark
  unfold getDevice parts
  rw [split_front, split_rest, whole, mark]
  clear split_front split_rest all_plain mark whole
  cases rest with
  | nil => rfl
  | cons c rest =>
    by_cases colon_first : c = colon
    · subst c
      rw [findMark, if_pos rfl, List.head?_cons, if_pos rfl]
      dsimp only
      rw [if_neg (by omega)]
      by_cases bare : front = []
      · subst front
        rfl
      · have some_front : 0 < front.length := List.length_pos_of_ne_nil bare
        rw [if_pos (by omega), if_neg bare, Int.toNat_natCast, List.take_left', List.drop_append, List.drop_eq_nil_of_le (by omega)]
        · simp [enter]
        · rfl
    · have slash_first : c = slash := by
        have marked := marked c rfl
        rw [plain, Bool.and_eq_false_iff, decide_eq_false_iff_not, decide_eq_false_iff_not, not_not, not_not] at marked
        exact marked.resolve_left colon_first
      subst c
      have apart : some slash ≠ some colon := by decide
      rw [findMark, if_neg colon_first, if_pos rfl, List.head?_cons, if_neg apart]
      dsimp only
      by_cases bare : front = []
      · subst front
        rfl
      · have some_front : 0 < front.length := List.length_pos_of_ne_nil bare
        rw [if_pos (by omega), if_neg (by simp [bare])]
        rfl

theorem skipSlashes_relative : (skipSlashes path).head? ≠ some slash := by
  intro first
  have other := List.head?_dropWhile_not (fun c => decide (c = slash)) path
  rw [← skipSlashes, first] at other
  simp at other

theorem parts_relative : (parts path).2.head? ≠ some slash := by
  unfold parts
  split
  · exact skipSlashes_relative
  · rename_i no_colon
    split
    · exact skipSlashes_relative
    · rename_i not_boot
      intro first
      cases path with
      | nil => cases first
      | cons c path =>
        obtain rfl := Option.some.inj first
        exact not_boot ⟨rfl, rfl⟩

/-! ## What a path leads to -/

variable {vfs after : Vfs} {node : Vnode} {fs : Nat} {vol : Volume} {origin : Start}

@[simp] theorem setVolume_volumes : (vfs.setVolume fs vol).volumes fs = vol := Function.update_self _ _ _

@[simp] theorem setVolume_twice {vol' : Volume} : (vfs.setVolume fs vol).setVolume fs vol' = vfs.setVolume fs vol' := by
  simp only [Vfs.setVolume, Function.update_idem]

theorem setVolume_same : vfs.setVolume fs (vfs.volumes fs) = vfs := by
  simp only [Vfs.setVolume, Function.update_eq_self]

/-- The root of the file system of an inode. -/
def rootOf (node : Vnode) : Vnode :=
  match node with
  | .device _ => node
  | .sfs fs _ => .sfs fs blknRoot

def orError {α : Type} (ret : Int) (found : Option α) : Except Int α := found.elim (.error ret) .ok

/-- What the name of a device stands for. -/
def Vdev.root (vdev : Vdev) : Except Int Vnode :=
  match vdev.fs with
  | some fs => .ok (.sfs fs blknRoot)
  | none => if vdev.mountable then .error (-eNaDev) else orError (-eNaDev) (vdev.devnode.map fun device => .device device)

def Vfs.begins (vfs : Vfs) : Start → Except Int Vnode
  | .current => orError (-eNoEnt) vfs.pwd
  | .boot => orError (-eNoEnt) vfs.bootfsNode
  | .currentRoot => orError (-eNoEnt) (vfs.pwd.map rootOf)
  | .named devname => (vfs.vdevList.find? fun vdev => devname = vdev.devname).elim (.error (-eNoDev)) Vdev.root

/-- What a name leads to from an inode. `none` stops the system. -/
def Vfs.named (vfs : Vfs) : Vnode → List UInt8 → Option (Except Int Vnode)
  | .device _, _ => some (.error (-eNoEnt))
  | .sfs fs dir, name =>
    if maxFnameLen < name.length then none
    else some ((orError (-eNoEnt) (entryNamed (vfs.volumes fs) dir name)).map fun entry => .sfs fs entry.ino)

def Vfs.leadsTo (vfs : Vfs) (path : List UInt8) : Option (Except Int Vnode) :=
  match vfs.begins (parts path).1 with
  | .error ret => some (.error ret)
  | .ok node => if (parts path).2 = [] then some (.ok node) else vfs.named node (parts path).2

/-- A directory in memory, on a file system with a root. -/
def Opened (vfs : Vfs) (node : Vnode) : Prop :=
  ∃ fs dir inode root, node = .sfs fs dir ∧ (vfs.volumes fs).inodes dir ≠ none ∧ Directory (vfs.volumes fs) dir inode ∧
    Directory (vfs.volumes fs) blknRoot root

/-- The current directory and that of the boot file system are open, file systems have a root, and other devices
have an inode that the table refers to. -/
structure Sound (vfs : Vfs) : Prop where
  current : ∀ node, vfs.pwd = some node → Opened vfs node
  boot : ∀ node, vfs.bootfsNode = some node → Opened vfs node
  mounted : ∀ vdev ∈ vfs.vdevList, ∀ fs, vdev.fs = some fs → ∃ root, Directory (vfs.volumes fs) blknRoot root
  devices : ∀ vdev ∈ vfs.vdevList, vdev.fs = none → vdev.mountable = false → ∃ device, vdev.devnode = some device ∧
    0 < (vfs.devices device).refCount ∧ (vfs.devices device).openCount ≤ (vfs.devices device).refCount ∧
    (vfs.devices device).refCount + 1 < maxInodeCount

/-- One inode has one reference more. -/
def Gained (vfs : Vfs) : Vnode → Vfs → Prop
  | .device device, after =>
    after = vfs.setDevice device { vfs.devices device with refCount := (vfs.devices device).refCount + 1 }
  | .sfs fs ino, after => ∃ vol, Waited ((vfs.volumes fs).set ino (held (vfs.volumes fs) ino)) vol ∧ after = vfs.setVolume fs vol

/-- Nothing has changed but what comes next from a disk and from `kmalloc`. -/
def Unchanged (vfs after : Vfs) : Prop := ∃ fs vol, Waited (vfs.volumes fs) vol ∧ after = vfs.setVolume fs vol

/-- A disk or `kmalloc` refuses a request with this error. -/
def Denied (vfs : Vfs) (ret : Int) : Prop := ∃ fs, Refused (vfs.volumes fs) ret

/-- The root of a file system is not in memory and may be refused. -/
def RootDenied (vfs : Vfs) : Prop := ∃ fs, (vfs.volumes fs).inodes blknRoot = none ∧ ∃ ret, Refused (vfs.volumes fs) ret

theorem unchanged : Unchanged vfs vfs := ⟨0, _, .refl _, setVolume_same.symm⟩

theorem onVolume_settles {α : Type} {call : Call Volume α} {post : α → Vfs → Prop} {bad : Int → Vfs → Prop} {halt : Prop}
    (settles : Settles call (fun value vol => post value (vfs.setVolume fs vol)) (fun ret vol => bad ret (vfs.setVolume fs vol)) halt
      (vfs.volumes fs)) : Settles (onVolume fs call) post bad halt vfs := by
  unfold onVolume
  exact .within settles

theorem onVolume_later {α : Type} {call : Call Volume α} {post : α → Vfs → Prop} {bad : Int → Vfs → Prop} {halt : Prop}
    (settles : Settles call (fun value vol => post value (vfs.setVolume fs vol)) (fun ret vol => bad ret (vfs.setVolume fs vol)) halt vol) :
    Settles (onVolume fs call) post bad halt (vfs.setVolume fs vol) := by
  apply onVolume_settles
  simpa using settles

/-! ## The start -/

/-- An inode in memory gets a reference. -/
theorem vopRefInc_holds {dir : Nat} (loaded : (vfs.volumes fs).inodes dir ≠ none) {bad : Int → Vfs → Prop} :
    Settles (vopRefInc (.sfs fs dir)) (fun _ after => after = vfs.setVolume fs ((vfs.volumes fs).set dir (held (vfs.volumes fs) dir)))
      bad False vfs := by
  obtain ⟨old, loaded⟩ := Option.ne_none_iff_exists'.mp loaded
  refine onVolume_settles (.bind (.of_run (congrArg _ loaded) (.modify ?_)))
  rw [held, loaded]

theorem vfsGetCurdir_holds {dir : Nat} (loaded : (vfs.volumes fs).inodes dir ≠ none) (current : vfs.pwd = some (.sfs fs dir))
    {bad : Int → Vfs → Prop} :
    Settles vfsGetCurdir
      (fun node after => node = .sfs fs dir ∧ after = vfs.setVolume fs ((vfs.volumes fs).set dir (held (vfs.volumes fs) dir)))
      bad False vfs := by
  refine .bind (.gets ?_)
  rw [current]
  refine .bind ((vopRefInc_holds loaded).weaken ?_ fun _ _ failed => failed)
  rintro ⟨⟩ after gained
  exact .pure ⟨rfl, gained⟩

theorem fsopGetRoot_gains {root : Inode} (directory : Directory (vfs.volumes fs) blknRoot root) {bad : Int → Vfs → Prop} :
    Settles (fsopGetRoot fs) (fun node after => node = .sfs fs blknRoot ∧ Gained vfs (.sfs fs blknRoot) after) bad (RootDenied vfs) vfs := by
  refine .bind (onVolume_settles (((sfsGetRoot_loads directory.readable.loadable).weaken ?_ fun _ _ failed => failed).halts ?_))
  · rintro _ vol ⟨rfl, waited⟩
    rw [← directory.readable.retained] at waited
    exact .pure ⟨rfl, vol, waited, rfl⟩
  · exact fun denied => ⟨fs, denied⟩

theorem rootLoop_gains (sound : Sound vfs) (devname : List UInt8) (vdevs : List Vdev) (listed : ∀ vdev ∈ vdevs, vdev ∈ vfs.vdevList) :
    Settles (rootLoop devname vdevs)
      (fun node after => (vdevs.find? fun vdev => devname = vdev.devname).elim (.error (-eNoDev)) Vdev.root = .ok node ∧ Gained vfs node after)
      (fun ret after => (vdevs.find? fun vdev => devname = vdev.devname).elim (.error (-eNoDev)) Vdev.root = .error ret ∧ after = vfs)
      (RootDenied vfs) vfs := by
  induction vdevs with
  | nil => exact .fail ⟨rfl, rfl⟩
  | cons vdev vdevs ih =>
    have here := listed vdev List.mem_cons_self
    have rest := ih fun other later => listed other (List.mem_cons_of_mem _ later)
    by_cases same : devname = vdev.devname
    · rw [rootLoop, if_pos same, List.find?_cons_of_pos (by simp [same]), Option.elim_some, Vdev.root]
      cases mounted : vdev.fs with
      | some fs =>
        obtain ⟨root, directory⟩ := sound.mounted vdev here fs mounted
        refine (fsopGetRoot_gains directory).weaken ?_ fun _ _ failed => failed
        rintro _ after ⟨rfl, gained⟩
        exact ⟨rfl, gained⟩
      | none =>
        cases mountable : vdev.mountable with
        | true =>
          cases vdev.devnode with
          | none => exact .fail ⟨rfl, rfl⟩
          | some device => exact .fail ⟨rfl, rfl⟩
        | false =>
          obtain ⟨device, devnode, -⟩ := sound.devices vdev here mounted mountable
          rw [devnode]
          exact .bind (.modify (.pure ⟨rfl, rfl⟩))
    · rw [rootLoop, if_neg same, List.find?_cons_of_neg (by simp [same])]
      exact rest

theorem currentRoot_gains {fs' dir : Nat} {inode root : Inode} (loaded : (vfs.volumes fs').inodes dir ≠ none)
    (pwd : vfs.pwd = some (.sfs fs' dir)) (directory : Directory (vfs.volumes fs') dir inode)
    (top : Directory (vfs.volumes fs') blknRoot root) {bad : Int → Vfs → Prop} :
    Settles currentRoot (fun node after => node = .sfs fs' blknRoot ∧ Gained vfs node after) bad (RootDenied vfs) vfs := by
  refine .bind (((vfsGetCurdir_holds loaded pwd).weaken ?_ fun _ _ failed => failed).halts False.elim)
  rintro _ _ ⟨rfl, rfl⟩
  rw [directory.readable.retained]
  obtain ⟨next, loadable⟩ := top.readable.loadable.held directory.readable
  refine .bind (.bind (onVolume_later (((sfsGetRoot_loads loadable).weaken ?_ fun _ _ failed => failed).halts ?_)))
  · rintro _ vol ⟨rfl, waited⟩
    rw [← loadable.retained] at waited
    refine .pure (.bind (onVolume_later (((giveBack directory.readable waited).weaken ?_ fun _ _ failed => failed).halts False.elim)))
    rintro ⟨⟩ final waited
    exact .pure ⟨rfl, final, waited, rfl⟩
  · rintro ⟨absent, ret, refused⟩
    refine ⟨fs', ?_, ret, refused⟩
    by_cases same : blknRoot = dir
    · have here : ((vfs.volumes fs').set dir (some inode)).inodes dir = some inode := Function.update_self _ _ _
      rw [same, here] at absent
      cases absent
    · exact (Function.update_of_ne same _ _).symm.trans absent

theorem enter_gains (sound : Sound vfs) (origin : Start) :
    Settles (enter origin) (fun node after => vfs.begins origin = .ok node ∧ Gained vfs node after)
      (fun ret after => vfs.begins origin = .error ret ∧ after = vfs) (RootDenied vfs) vfs := by
  have held_node {node : Vnode} (opened : Opened vfs node) {bad : Int → Vfs → Prop} :
      Settles (vopRefInc node) (fun _ after => Gained vfs node after) bad (RootDenied vfs) vfs := by
    obtain ⟨fs, dir, inode, root, rfl, loaded, -, -⟩ := opened
    refine ((vopRefInc_holds loaded).weaken ?_ fun _ _ failed => failed).halts False.elim
    rintro ⟨⟩ after rfl
    exact ⟨_, .refl _, rfl⟩
  cases origin with
  | current =>
    refine .bind (.gets ?_)
    rw [Vfs.begins]
    cases pwd : vfs.pwd with
    | none => exact .fail ⟨rfl, rfl⟩
    | some node =>
      refine .bind ((held_node (sound.current node pwd)).weaken ?_ fun _ _ failed => failed)
      rintro ⟨⟩ after gained
      exact .pure ⟨rfl, gained⟩
  | boot =>
    refine .bind (.gets ?_)
    rw [Vfs.begins]
    cases boot : vfs.bootfsNode with
    | none => exact .fail ⟨rfl, rfl⟩
    | some node =>
      refine .bind ((held_node (sound.boot node boot)).weaken ?_ fun _ _ failed => failed)
      rintro ⟨⟩ after gained
      exact .pure ⟨rfl, gained⟩
  | currentRoot =>
    rw [Vfs.begins]
    cases pwd : vfs.pwd with
    | none =>
      refine .bind (.bind (.gets ?_))
      rw [pwd]
      exact .fail ⟨rfl, rfl⟩
    | some node =>
      obtain ⟨fs, dir, inode, root, rfl, loaded, directory, top⟩ := sound.current node pwd
      refine (currentRoot_gains loaded pwd directory top).weaken ?_ fun _ _ failed => failed
      rintro _ after ⟨rfl, gained⟩
      exact ⟨rfl, gained⟩
  | named devname =>
    refine .bind (.gets ?_)
    exact rootLoop_gains sound devname vfs.vdevList fun _ member => member

/-! ## The whole lookup -/

/-- A device in the table, with room for a reference. -/
def Registered (vfs : Vfs) (node : Vnode) : Prop :=
  ∃ device, node = .device device ∧ 0 < (vfs.devices device).refCount ∧
    (vfs.devices device).openCount ≤ (vfs.devices device).refCount ∧ (vfs.devices device).refCount + 1 < maxInodeCount

/-- A lookup starts from a directory or from a device. -/
theorem begins_from (sound : Sound vfs) (begins : vfs.begins origin = .ok node) :
    (∃ fs dir inode, node = .sfs fs dir ∧ Directory (vfs.volumes fs) dir inode) ∨ Registered vfs node := by
  cases origin with
  | current =>
    cases pwd : vfs.pwd with
    | none =>
      rw [Vfs.begins, pwd] at begins
      cases begins
    | some found =>
      rw [Vfs.begins, pwd] at begins
      cases begins
      obtain ⟨fs, dir, inode, -, same, -, directory, -⟩ := sound.current _ pwd
      exact .inl ⟨fs, dir, inode, same, directory⟩
  | boot =>
    cases boot : vfs.bootfsNode with
    | none =>
      rw [Vfs.begins, boot] at begins
      cases begins
    | some found =>
      rw [Vfs.begins, boot] at begins
      cases begins
      obtain ⟨fs, dir, inode, -, same, -, directory, -⟩ := sound.boot _ boot
      exact .inl ⟨fs, dir, inode, same, directory⟩
  | currentRoot =>
    cases pwd : vfs.pwd with
    | none =>
      rw [Vfs.begins, pwd] at begins
      cases begins
    | some found =>
      rw [Vfs.begins, pwd] at begins
      cases begins
      obtain ⟨fs, dir, -, root, rfl, -, -, top⟩ := sound.current _ pwd
      exact .inl ⟨fs, blknRoot, root, rfl, top⟩
  | named devname =>
    rw [Vfs.begins] at begins
    cases found : vfs.vdevList.find? fun vdev => devname = vdev.devname with
    | none =>
      rw [found] at begins
      cases begins
    | some vdev =>
      have listed := List.mem_of_find?_eq_some found
      rw [found, Option.elim_some, Vdev.root] at begins
      cases mounted : vdev.fs with
      | some fs =>
        rw [mounted] at begins
        cases begins
        obtain ⟨root, top⟩ := sound.mounted vdev listed fs mounted
        exact .inl ⟨fs, blknRoot, root, rfl, top⟩
      | none =>
        cases mountable : vdev.mountable with
        | true =>
          rw [mounted, mountable] at begins
          cases begins
        | false =>
          obtain ⟨device, devnode, usable⟩ := sound.devices vdev listed mounted mountable
          rw [mounted, mountable, devnode] at begins
          cases begins
          exact .inr ⟨device, rfl, usable⟩

/-- A name is looked up and the start is given back. -/
def lookupFrom (node : Vnode) (name : List UInt8) : Call Vfs Vnode := do
  let outcome ← attempt (vopLookup node name)
  vopRefDec node
  match outcome with
  | .ok found => return found
  | .error ret => fail ret

variable {name : List UInt8}

theorem lookupFrom_device (registered : Registered vfs node) (gained : Gained vfs node after) (some_name : name ≠ []) :
    Settles (lookupFrom node name) (fun _ _ => False) (fun ret final => ret = -eNoEnt ∧ final = vfs) False after := by
  obtain ⟨device, rfl, referenced, opened, few⟩ := registered
  let again : DevInode := { vfs.devices device with refCount := (vfs.devices device).refCount + 1 }
  obtain rfl : after = vfs.setDevice device again := gained
  have here : (vfs.setDevice device again).devices device = again := Function.update_self _ _ _
  refine .bind (.attempt (.bind (.gets (.bind (.assert (fun _ => .bind (.assert (fun _ => ?_) ?_)) ?_)))))
  · rw [if_pos some_name]
    refine .fail (.bind (.bind (.gets (.bind (.assert (fun _ => .modify (.fail ⟨rfl, ?_⟩)) ?_)))))
    · rw [here]
      simp [Vfs.setDevice, again]
    · rw [here]
      simp [again, referenced]
  · rw [here]
    simp only [again, Bool.and_eq_false_iff, decide_eq_false_iff_not]
    omega
  · rw [here]
    simp only [again, decide_eq_false_iff_not]
    omega

theorem lookupFrom_directory {dir : Nat} {inode : Inode} (directory : Directory (vfs.volumes fs) dir inode)
    (gained : Gained vfs (.sfs fs dir) after) (some_name : name ≠ []) (relative : name.head? ≠ some slash) :
    Settles (lookupFrom (.sfs fs dir) name)
      (fun found final => name.length ≤ maxFnameLen ∧ (∃ entry, entryNamed (vfs.volumes fs) dir name = some entry ∧ found = .sfs fs entry.ino) ∧ Gained vfs found final)
      (fun ret final => name.length ≤ maxFnameLen ∧ (entryNamed (vfs.volumes fs) dir name = none ∧ ret = -eNoEnt ∨ Denied vfs ret) ∧ Unchanged vfs final)
      (maxFnameLen < name.length) after := by
  obtain ⟨vol, waited, rfl⟩ := gained
  rw [directory.readable.retained] at waited
  refine .bind (.attempt (.bind (onVolume_later ((sfsLookup_looks directory waited some_name relative).weaken ?_ ?_))))
  · rintro ino vol' ⟨short, ⟨entry, found, rfl⟩, waited'⟩
    refine .pure (.bind (onVolume_later (((giveBack directory.readable waited').weaken ?_ fun _ _ failed => failed).halts False.elim)))
    rintro ⟨⟩ final waited
    exact .pure ⟨short, ⟨entry, found, rfl⟩, final, waited, rfl⟩
  · rintro ret vol' ⟨short, failed, waited'⟩
    refine .bind (onVolume_later (((giveBack_alone directory.readable waited').weaken ?_ fun _ _ failed => failed).halts False.elim))
    rintro ⟨⟩ final waited
    exact .fail ⟨short, failed.imp_right fun refused => ⟨fs, refused⟩, fs, final, waited, rfl⟩

theorem vfsLookup_settles (sound : Sound vfs) (path : List UInt8) :
    Settles (vfsLookup path) (fun node after => vfs.leadsTo path = some (.ok node) ∧ Gained vfs node after)
      (fun ret after => (vfs.leadsTo path = some (.error ret) ∨ Denied vfs ret) ∧ Unchanged vfs after)
      (vfs.leadsTo path = none ∨ RootDenied vfs) vfs := by
  unfold vfsLookup
  rw [getDevice_eq]
  refine .bind (.bind (((enter_gains sound _).weaken ?_ ?_).halts .inr))
  · rintro node after ⟨begins, gained⟩
    apply Settles.pure
    dsimp only
    rw [Vfs.leadsTo, begins]
    by_cases nothing : (parts path).2 = []
    · rw [if_neg (not_not_intro nothing)]
      exact .pure ⟨if_pos nothing, gained⟩
    · rw [if_pos nothing]
      change Settles (lookupFrom node (parts path).2) _ _ _ _
      dsimp only
      rw [if_neg nothing]
      rcases begins_from sound begins with ⟨fs, dir, inode, rfl, directory⟩ | registered
      · refine ((lookupFrom_directory directory gained nothing parts_relative).weaken ?_ ?_).halts ?_
        · rintro _ after ⟨short, ⟨entry, found, rfl⟩, gained⟩
          rw [Vfs.named, if_neg (Nat.not_lt_of_le short), found]
          exact ⟨rfl, gained⟩
        · rintro ret after ⟨short, failed, same⟩
          refine ⟨failed.imp_left ?_, same⟩
          rintro ⟨missing, rfl⟩
          rw [Vfs.named, if_neg (Nat.not_lt_of_le short), missing]
          rfl
        · intro long
          exact .inl (if_pos long)
      · refine ((lookupFrom_device registered gained nothing).weaken ?_ ?_).halts False.elim
        · exact fun _ _ => False.elim
        · rintro ret after ⟨rfl, rfl⟩
          obtain ⟨device, rfl, -⟩ := registered
          exact ⟨.inl rfl, unchanged⟩
  · rintro ret after ⟨begins, rfl⟩
    rw [Vfs.leadsTo, begins]
    exact ⟨.inl rfl, unchanged⟩

theorem not_denied {ret : Int} (serves : ∀ fs, Serves (vfs.volumes fs)) : ¬ Denied vfs ret := by
  rintro ⟨fs, ⟨n, d, write, refused⟩ | ⟨-, n, refused⟩⟩
  · rw [(serves fs).device n d write trivial] at refused
    cases refused
  · rw [(serves fs).memory n] at refused
    cases refused

/-- A path leads where its form says: to the start when nothing follows, else to the entry with the rest of the path
as its name. The inode it leads to has one reference more and all others keep theirs; a failed lookup leaves
everything as it was. Only a name that is too long or a root that cannot be read stops the system. So where the
disks and `kmalloc` refuse nothing, the paths found are those that lead somewhere. -/
theorem lookup_leads (vfs : Vfs) (sound : Sound vfs) (path : List UInt8) :
    Settles (vfsLookup path) (fun node after => vfs.leadsTo path = some (.ok node) ∧ Gained vfs node after)
      (fun ret after => (vfs.leadsTo path = some (.error ret) ∨ Denied vfs ret) ∧ Unchanged vfs after)
      (vfs.leadsTo path = none ∨ RootDenied vfs) vfs ∧
    ((∀ fs, Serves (vfs.volumes fs)) →
      ∀ node, vfs.leadsTo path = some (.ok node) ↔ ∃ after, Returns (vfsLookup path) vfs node after) := by
  have settles := vfsLookup_settles sound path
  refine ⟨settles, fun serves node => ⟨fun leads => ?_, fun ⟨after, ran⟩ => (settles.returns node after ran).1⟩⟩
  cases ran : vfsLookup path vfs with
  | none =>
    rcases settles.stops ran with nowhere | ⟨fs, -, ret, refused⟩
    · cases leads.symm.trans nowhere
    · exact absurd ⟨fs, refused⟩ (not_denied serves)
  | some reached =>
    obtain ⟨outcome, after⟩ := reached
    cases outcome with
    | ok found =>
      obtain ⟨leads', -⟩ := settles.returns found after ran
      cases leads.symm.trans leads'
      exact ⟨after, ran⟩
    | error ret =>
      rcases (settles.fails ret after ran).1 with fails | denied
      · cases leads.symm.trans fails
      · exact absurd denied (not_denied serves)

/-- `disk0` -/
def disk0 : List UInt8 := [0x64, 0x69, 0x73, 0x6b, 0x30]

/-- A process in the directory `/ab` of `disk0`, next to a console. -/
def treeVfs : Vfs where
  vdevList := [⟨[0x74, 0x74, 0x79], some 0, none, false⟩, ⟨disk0, some 1, some 0, true⟩]
  bootfsNode := some (.sfs 0 1)
  pwd := some (.sfs 0 3)
  volumes := fun _ => treeDisk
  devices := fun _ => ⟨1, 0⟩

theorem treeDisk_directory (dir : Nat) (member : dir = 1 ∨ dir = 3) : Directory treeDisk dir ⟨treeDins dir, 1, false, 1, 2, 0⟩ := by
  obtain ⟨top, sub⟩ := treeDisk_entries
  have loadable (ino : Nat) (member : ino = 1 ∨ ino = 3) : ∃ next, Loadable treeDisk ino next := ⟨_, (treeDisk_readable ino member).loadable⟩
  refine ⟨treeDisk_readable dir member, Nat.zero_le _, show 2 < maxInodeCount by decide, fun entry listed => loadable entry.ino ?_⟩
  rcases member with rfl | rfl
  · exact forall_listed top (p := fun ino _ => ino = 1 ∨ ino = 3) (by decide) entry listed
  · exact forall_listed sub (p := fun ino _ => ino = 1 ∨ ino = 3) (by decide) entry listed

theorem treeVfs_sound : Sound treeVfs := by
  have opened (dir : Nat) (member : dir = 1 ∨ dir = 3) : Opened treeVfs (.sfs 0 dir) := by
    refine ⟨0, dir, _, _, rfl, ?_, treeDisk_directory dir member, treeDisk_directory 1 (.inl rfl)⟩
    change (if dir = 1 ∨ dir = 3 then _ else _) ≠ none
    rw [if_pos member]
    nofun
  refine ⟨?_, ?_, ?_, ?_⟩
  · rintro _ ⟨rfl⟩
    exact opened 3 (.inr rfl)
  · rintro _ ⟨rfl⟩
    exact opened 1 (.inl rfl)
  · intro vdev listed fs mounted
    exact ⟨_, treeDisk_directory 1 (.inl rfl)⟩
  · intro vdev listed unmounted fixed
    rcases List.mem_cons.mp listed with rfl | listed
    · exact ⟨0, rfl, by decide, by decide, by decide⟩
    · obtain rfl := List.mem_singleton.mp listed
      cases unmounted

/-- The path `disk0:/ab`. -/
theorem subdirectory_found : ∃ after, Returns (vfsLookup (disk0 ++ [colon, slash, 0x61, 0x62])) treeVfs (.sfs 0 3) after :=
  ((lookup_leads treeVfs treeVfs_sound (disk0 ++ [colon, slash, 0x61, 0x62])).2 (fun _ => ⟨fun _ => rfl, fun _ _ _ _ => rfl⟩) _).mp
    (by decide +kernel)

end Ucore.VfsLookup
