import Ucore.SysFileProofs

/-! What `sysfile_read` delivers. Its loop moves the pieces that successive reads
of the file give, each to the place behind the one before, until one is refused;
through descriptor 2 a single turn counts all that is asked for. -/
namespace Ucore.SysFileProofs
open UserMem UserMemProofs SysFile
open Paging (eInval eNoMem usertop)

variable {δ : Type} {vops : Vops δ} {state : State δ} {space : Option Mm} {file : File} {fd dup : Int}
  {buffer : Nat → Nat} {base len copied : Nat} {room : Bool}

/-- `vop_read` gives no more than it is asked for. Its code is not only an error or 0: `stdin_io` returns the
number of the bytes. -/
structure LawfulReads (vops : Vops δ) : Prop where
  short : ∀ node pos len disk, (vops.read node pos len disk).2.2.length ≤ len

/-- Calls of `vop_read` that follow each other in the file, each for what is left of `len`
as far as the buffer of the kernel holds it, have given these bytes. -/
inductive Reads (vops : Vops δ) (node : Nat) : Nat → δ → Int → List Nat → δ → Prop
  | done {len disk pos} : Reads vops node len disk pos [] disk
  | call {len disk pos between ret data more last}
      (first : vops.read node pos (min len iobufSize) disk = (between, ret, data))
      (rest : Reads vops node (len - data.length) between (pos + data.length) more last) :
      Reads vops node len disk pos (data ++ more) last

/-- As many bytes are the same bytes. -/
theorem Reads.unique {node : Nat} {disk last last' : δ} {pos : Int} {data other : List Nat}
    (reads : Reads vops node len disk pos data last) (reads' : Reads vops node len disk pos other last')
    (count : data.length = other.length) : data = other := by
  induction reads generalizing other with
  | done => exact (List.length_eq_zero_iff.mp count.symm).symm
  | call first rest ih =>
    cases reads' with
    | done => exact List.length_eq_zero_iff.mp count
    | call first' rest' =>
      cases first.symm.trans first'
      rw [List.length_append, List.length_append, Nat.add_left_cancel_iff] at count
      rw [ih rest' count]

/-- These bytes written over the memory from `base` on. -/
def overlay (user : Nat → Nat) (base : Nat) (data : List Nat) : Nat → Nat := fun addr =>
  if base ≤ addr ∧ addr < base + data.length then data.getD (addr - base) 0 else user addr

theorem overlay_nil (user : Nat → Nat) (base : Nat) : overlay user base [] = user := by
  funext addr
  have outside : ¬(base ≤ addr ∧ addr < base) := by omega
  simp [overlay, outside]

theorem overlay_append (user : Nat → Nat) (base : Nat) (data more : List Nat) :
    overlay (overlay user base data) (base + data.length) more = overlay user base (data ++ more) := by
  funext addr
  simp only [overlay, List.length_append]
  by_cases low : base ≤ addr ∧ addr < base + data.length
  · rw [if_neg (by omega), if_pos low, if_pos (by omega), List.getD_append _ _ _ _ (by omega)]
  · by_cases high : base + data.length ≤ addr ∧ addr < base + data.length + more.length
    · rw [if_pos high, if_pos (by omega), List.getD_append_right _ _ _ _ (by omega)]
      congr 1
      omega
    · rw [if_neg high, if_neg low, if_neg (by omega)]

/-- What successive reads of at most `len` bytes give. -/
def pieces (vops : Vops δ) (node : Nat) : Nat → δ → Int → Nat → List (List Nat)
  | 0, _, _, _ => []
  | turns + 1, disk, pos, len =>
    if len = 0 then []
    else
      match vops.read node pos (min len iobufSize) disk with
      | (disk, ret, data) =>
        if data = [] then [] else if ret ≠ 0 then [data]
        else data :: pieces vops node turns disk (pos + data.length) (len - data.length)

/-- The process may write each piece to its place, one behind the other from `base` on. -/
def Accepts (space : Option Mm) : Nat → List (List Nat) → Prop
  | _, [] => True
  | base, data :: rest => Grants space base data.length true ∧ Accepts space (base + data.length) rest

/-- The first piece, if any, is refused. -/
def Refuses (space : Option Mm) (base : Nat) : List (List Nat) → Prop
  | [] => True
  | data :: _ => ¬Grants space base data.length true

theorem accepts_checked {later : Option Mm} (checked : Checked space later) (rest : List (List Nat)) :
    Accepts later base rest ↔ Accepts space base rest := by
  induction rest generalizing base with
  | nil => rfl
  | cons data rest ih => exact and_congr checked.grants ih

theorem copyToUser_returns (base : Nat) (user src : Nat → Nat) (sound : Sound space) (small : len < 2 ^ 64) :
    ∃ later ok, copyToUser space user src base len = some (later,
        (if ok then fun addr => if base ≤ addr && addr < base + len then src (addr - base) else user addr
          else user), ok) ∧
      Checked space later ∧ (ok ↔ Grants space base len true) := by
  obtain ⟨later, ok, ran, checked, grants⟩ := check_grants base true sound small
  refine ⟨later, ok, ?_, checked, grants⟩
  cases ok <;> simp [copyToUser, ran]

theorem fileRead_opened (vops : Vops δ) (opened : Opened state fd file) (readable : file.readable = true)
    {disk : δ} {ret : Int} {data : List Nat}
    (read : vops.read file.node file.pos len state.disk = (disk, ret, data)) :
    fileRead vops state fd buffer len =
      (SysFile.setFile { state with disk } fd { file with pos := file.pos + data.length },
        (fun i => if i < data.length then data.getD i 0 else buffer i), ret,
        if fd = 2 then sizeofKpuBuff else data.length) := by
  unfold Opened at opened
  simp [fileRead, opened, readable, read]

/-- What is returned where nothing of this answer of `vop_read` is delivered. -/
def unserved (ret : Int) (data : List Nat) : Int := if data ≠ [] ∧ ret = 0 then -eInval else ret

/-- What the loop has done behind `copied` bytes: it has read `data`, of which it has
delivered the first `n` bytes, and returns the number of all that is delivered. -/
structure ReadMore (vops : Vops δ) (fd : Int) (file : File) (base len copied : Nat) (data : List Nat) (n : Nat)
    (before after : State δ) (result : Int) : Prop where
  reads : Reads vops file.node len before.disk file.pos data after.disk
  position : after.fdArray =
    Function.update before.fdArray fd (some { file with pos := file.pos + (data.length : Nat) })
  user : after.user = overlay before.user base (data.take n)
  counted : copied + n ≠ 0 → result = (copied + n : Nat)
  nothing : len ≠ 0 → copied + n = 0 → ∀ disk ret got, vops.read file.node file.pos (min len iobufSize) before.disk =
    (disk, ret, got) → result = unserved ret got ∧ data = got

/-- The buffer with what a read has given at its start. -/
def fetched (buffer : Nat → Nat) (data : List Nat) : Nat → Nat := fun i =>
  if i < data.length then data.getD i 0 else buffer i

theorem overlay_fetched (user buffer : Nat → Nat) (base : Nat) (data : List Nat) :
    (fun addr => if base ≤ addr && addr < base + data.length then fetched buffer data (addr - base)
      else user addr) = overlay user base data := by
  funext addr
  by_cases inside : base ≤ addr ∧ addr < base + data.length
  · have below : addr - base < data.length := by omega
    simp [overlay, fetched, inside, below]
  · have outside : ¬(base ≤ addr && addr < base + data.length) = true := by simpa using inside
    rw [if_neg outside, overlay, if_neg inside]

/-- A turn of the loop reads, and moves what a read through this descriptor counts. -/
theorem readLoop_turn {disk : δ} {ret : Int} {data : List Nat} {later : Option Mm} {user : Nat → Nat} {ok : Bool}
    {alen : Nat} (turns : Nat) (opened : Opened state fd file) (readable : file.readable = true) (nonempty : len ≠ 0)
    (read : vops.read file.node file.pos (min len iobufSize) state.disk = (disk, ret, data))
    (counts : alen = if fd = 2 then len else data.length) (short : alen ≤ len)
    (ran : copyToUser state.space state.user (fetched buffer data) base alen = some (later, user, ok)) :
    readLoop vops fd (turns + 1) state buffer base len copied =
      if alen = 0 then
        some (finish (SysFile.setFile { state with disk } fd { file with pos := file.pos + data.length }) copied ret)
      else if ok then
        if ret ≠ 0 then
          some (finish { SysFile.setFile { state with disk } fd { file with pos := file.pos + data.length } with
            space := later, user } (copied + alen) ret)
        else readLoop vops fd turns
          { SysFile.setFile { state with disk } fd { file with pos := file.pos + data.length } with
            space := later, user } (fetched buffer data) (word (base + alen)) (len - alen) (copied + alen)
      else some (finish { SysFile.setFile { state with disk } fd { file with pos := file.pos + data.length } with
        space := later, user } copied (if ret = 0 then -eInval else ret)) := by
  have sameCount : (if fd = 2 then len else if fd = 2 then sizeofKpuBuff else data.length) = alen := by
    rw [counts]
    split_ifs <;> rfl
  have ran' : copyToUser (SysFile.setFile { state with disk } fd { file with pos := file.pos + data.length }).space
      (SysFile.setFile { state with disk } fd { file with pos := file.pos + data.length }).user
      (fetched buffer data) base alen = some (later, user, ok) := ran
  rw [readLoop, if_neg nonempty, chunk_eq]
  simp only [fileRead_opened vops opened readable read, sameCount]
  rw [show (fun i => if i < data.length then data.getD i 0 else buffer i) = fetched buffer data from rfl]
  by_cases none : alen = 0
  · simp [none]
  · simp only [ne_eq, none, not_false_eq_true, if_true, if_false, ran', Option.bind_eq_bind, Option.bind_some,
      if_neg (not_lt.mpr short)]

theorem finish_result (state : State δ) (ret : Int) (spans : Spans space base copied) :
    ∃ result, finish state copied ret = (state, result) ∧ (copied ≠ 0 → result = copied) ∧ (copied = 0 → result = ret) := by
  refine ⟨_, rfl, fun moved => ?_, fun nothing => if_neg (not_not.mpr nothing)⟩
  rw [if_pos moved, toInt_spans spans]

theorem unserved_some {ret : Int} {data : List Nat} (got : data ≠ []) : unserved ret data = if ret = 0 then -eInval else ret := by
  simp [unserved, got]

theorem unserved_none (ret : Int) : unserved ret [] = ret := by
  simp [unserved]

theorem readLoop_returns (lawful : LawfulReads vops) (other : fd ≠ 2) (turns : Nat)
    (sound : Sound state.space) (opened : Opened state fd file) (readable : file.readable = true)
    (spans : Spans state.space base copied) (small : len < 2 ^ 64) (enough : len < turns) :
    ∃ after result data n, readLoop vops fd turns state buffer base len copied = some (after, result) ∧
      n ≤ data.length ∧ data.length ≤ len ∧ ReadMore vops fd file base len copied data n state after result ∧
      (n = data.length ↔ Accepts state.space base (pieces vops file.node turns state.disk file.pos len)) ∧
      (n = 0 ↔ Refuses state.space base (pieces vops file.node turns state.disk file.pos len)) := by
  induction turns generalizing state file buffer base len copied with
  | zero => omega
  | succ turns ih =>
    rw [pieces]
    by_cases empty : len = 0
    · rw [readLoop, if_pos empty, if_pos empty]
      obtain ⟨result, finished, counted, -⟩ := finish_result state 0 spans
      rw [finished]
      exact ⟨state, result, [], 0, rfl, le_rfl, Nat.zero_le _,
        ⟨Reads.done, opened.unchanged, (overlay_nil _ _).symm, counted, absurd empty⟩, by simp [Accepts], by simp [Refuses]⟩
    · rw [if_neg empty]
      rcases read : vops.read file.node file.pos (min len iobufSize) state.disk with ⟨disk, ret, data⟩
      have short : data.length ≤ min len iobufSize := by
        simpa [read] using lawful.short file.node file.pos (min len iobufSize) state.disk
      have given : Reads vops file.node len state.disk file.pos data disk := by
        simpa using Reads.call read Reads.done
      by_cases nothingRead : data = []
      · subst nothingRead
        obtain ⟨later, ok, ran, -⟩ := copyToUser_returns base state.user (fetched buffer []) sound (by omega : 0 < 2 ^ 64)
        obtain ⟨result, finished, counted, nothing⟩ := finish_result
          (SysFile.setFile { state with disk } fd { file with pos := file.pos + (0 : Nat) }) ret spans
        rw [readLoop_turn turns opened readable empty read (if_neg other).symm (Nat.zero_le _) ran, if_pos List.length_nil]
        dsimp only
        rw [if_pos rfl]
        refine ⟨_, result, [], 0, congrArg some finished, le_rfl, Nat.zero_le _,
          ⟨given, rfl, (overlay_nil _ _).symm, counted, fun _ none disk' ret' got same => ?_⟩, by simp [Accepts], by simp [Refuses]⟩
        cases read.symm.trans same
        rw [unserved_none, nothing none]
        exact ⟨rfl, rfl⟩
      · have some' : data.length ≠ 0 := by simpa using nothingRead
        obtain ⟨later, ok, ran, checked, grants⟩ := copyToUser_returns base state.user (fetched buffer data) sound
          (by omega : data.length < 2 ^ 64)
        rw [readLoop_turn turns opened readable empty read (if_neg other).symm (by omega) ran, if_neg some']
        dsimp only
        rw [if_neg nothingRead]
        cases ok with
        | false =>
          obtain ⟨result, finished, counted, nothing⟩ := finish_result
            { SysFile.setFile { state with disk } fd { file with pos := file.pos + data.length } with space := later }
            (if ret = 0 then -eInval else ret) spans
          have refused : ¬Grants state.space base data.length true := fun granted => by simpa using grants.mpr granted
          refine ⟨_, result, data, 0, congrArg some finished, Nat.zero_le _, by omega,
            ⟨given, rfl, (overlay_nil _ _).symm, counted, fun _ none disk' ret' got same => ?_⟩, ?_, ?_⟩
          · cases read.symm.trans same
            rw [unserved_some nothingRead, nothing none]
            exact ⟨rfl, rfl⟩
          · split_ifs <;> simp [Accepts, refused, Ne.symm some']
          · split_ifs <;> simp [Refuses, refused]
        | true =>
          have granted := grants.mp rfl
          have grown := spans.grow granted (by omega) le_rfl
          simp only [if_true, overlay_fetched]
          by_cases stops : ret = 0
          · have onward : word (base + data.length) = base + data.length := by
              have top := grants_bounds granted (by omega)
              have high := highest_lt state.space
              exact Nat.mod_eq_of_lt (by omega)
            simp only [stops, ne_eq, not_true_eq_false, if_false, onward]
            obtain ⟨next, nextEq⟩ : ∃ next : State δ, next =
                { SysFile.setFile { state with disk } fd { file with pos := file.pos + data.length } with
                  space := later, user := overlay state.user base data } := ⟨_, rfl⟩
            have nextOpened : Opened next fd { file with pos := file.pos + data.length } := by
              subst nextEq
              exact Opened.setFile (show Opened { state with disk } fd file from opened)
            obtain ⟨after, result, more, n, again, less, few, rest, all, none⟩ :=
              @ih next _ (fetched buffer data) _ _ _
                (by subst nextEq; exact checked.sound : Sound next.space) nextOpened readable
                (by subst nextEq; exact spans_checked grown checked : Spans next.space _ _)
                (by omega : len - data.length < 2 ^ 64) (by omega)
            have restUser := rest.user
            have restReads := rest.reads
            have restPosition := rest.position
            subst nextEq
            refine ⟨after, result, data ++ more, data.length + n, again, by simpa using less, ?_, ⟨?_, ?_, ?_, ?_, ?_⟩,
              ?_, ?_⟩
            · rw [List.length_append]
              omega
            · exact Reads.call read restReads
            · rw [restPosition]
              simp [SysFile.setFile, add_assoc]
            · rw [restUser, List.take_length_add_append, overlay_append]
            · rw [← Nat.add_assoc]
              exact rest.counted
            · exact fun _ none => absurd none (by omega)
            · rw [List.length_append, Nat.add_left_cancel_iff, all]
              simp only [Accepts, granted, true_and]
              exact accepts_checked checked _
            · simp [Refuses, granted, nothingRead]
          · obtain ⟨result, finished, counted, -⟩ := finish_result
              { SysFile.setFile { state with disk } fd { file with pos := file.pos + data.length } with
                space := later, user := overlay state.user base data } ret grown
            simp only [stops, ne_eq, not_false_eq_true, if_true]
            refine ⟨_, result, data, data.length, congrArg some finished, le_rfl, by omega,
              ⟨given, rfl, by simp, counted, fun _ none => absurd none (by omega)⟩, by simp [Accepts, granted], ?_⟩
            simp [Refuses, granted, some']

theorem readLoop_agree {turns more : Nat} {first second : State δ × Int}
    (one : readLoop vops fd turns state buffer base len copied = some first)
    (other : readLoop vops fd more state buffer base len copied = some second) : first = second := by
  induction turns generalizing more state buffer base len copied with
  | zero => cases one
  | succ turns ih =>
    cases more with
    | zero => cases other
    | succ more =>
      rw [readLoop] at one other
      by_cases empty : len = 0
      · rw [if_pos empty] at one other
        exact Option.some.inj (one.symm.trans other)
      · rw [if_neg empty] at one other
        rcases given : fileRead vops state fd buffer (if len < iobufSize then len else iobufSize) with
          ⟨between, filled, ret, got⟩
        simp only [given] at one other
        obtain ⟨alen, alenEq⟩ : ∃ alen, alen = if fd = 2 then len else got := ⟨_, rfl⟩
        rw [← alenEq] at one other
        by_cases moves : alen ≠ 0
        · rw [if_pos moves] at one other
          rcases ran : copyToUser between.space between.user filled base alen with _ | ⟨later, user, ok⟩
          · rw [ran] at one
            cases one
          · rw [ran] at one other
            simp only [Option.bind_eq_bind, Option.bind_some] at one other
            split_ifs at one other
            · exact Option.some.inj (one.symm.trans other)
            · exact ih one other
            all_goals exact Option.some.inj (one.symm.trans other)
        · rw [if_neg moves] at one other
          exact Option.some.inj (one.symm.trans other)

/-- What `sysfile_read` has done when all that it took from the file has been
delivered, or nothing where it reports no bytes: the bytes are counted, stand in
the buffer in their order with nothing behind them changed, and the position is
behind them; at the end of the file the result is 0. -/
structure Delivered (vops : Vops δ) (room : Bool) (fd : Int) (file : File) (base len : Nat)
    (before after : State δ) (result : Int) (data : List Nat) : Prop where
  reads : Reads vops file.node len before.disk file.pos data after.disk
  position : after.fdArray =
    Function.update before.fdArray fd (some { file with pos := file.pos + (data.length : Nat) })
  short : data.length ≤ len
  counted : 0 < result → result = data.length ∧ after.user = overlay before.user base data
  nothing : result ≤ 0 → after.user = before.user
  ended : room → (vops.read file.node file.pos (min len iobufSize) before.disk).2 = (0, []) → result = 0

/-- What two descriptors and the rest of two states have in common. -/
structure Same (fd dup : Int) (state other : State δ) : Prop where
  file : fd2file other dup = fd2file state fd
  space : other.space = state.space
  user : other.user = state.user
  disk : other.disk = state.disk

theorem Opened.fd2file_setFile {other : File} (opened : Opened state fd file) :
    fd2file (SysFile.setFile state fd other) fd = some other :=
  opened.setFile

theorem Same.opened {other : State δ} (same : Same fd dup state other) (opened : Opened state fd file) :
    Opened other dup file :=
  same.file.trans opened

/-- The same read through both descriptors leaves them the same. -/
theorem Same.move {other : State δ} {next : File} (same : Same fd dup state other) (opened : Opened state fd file)
    (disk : δ) (later : Option Mm) (user : Nat → Nat) :
    Same fd dup { SysFile.setFile { state with disk } fd next with space := later, user }
      { SysFile.setFile { other with disk } dup next with space := later, user } := by
  refine ⟨?_, rfl, rfl, rfl⟩
  have one : Opened { state with disk } fd file := opened
  have second : Opened { other with disk } dup file := same.opened opened
  exact second.fd2file_setFile.trans one.fd2file_setFile.symm

theorem readLoop_same {other after : State δ} {result : Int} (lawful : LawfulReads vops) (turns : Nat)
    (sound : Sound state.space) (same : Same fd dup state other)
    (opened : Opened state fd file) (readable : file.readable = true) (plain : fd ≠ 2) (plainDup : dup ≠ 2)
    (small : len < 2 ^ 64) (ran : readLoop vops fd turns state buffer base len copied = some (after, result)) :
    ∃ after', readLoop vops dup turns other buffer base len copied = some (after', result) ∧
      Same fd dup after after' := by
  induction turns generalizing state other file buffer base len copied with
  | zero => cases ran
  | succ turns ih =>
    by_cases empty : len = 0
    · rw [readLoop, if_pos empty] at ran ⊢
      cases ran
      exact ⟨other, rfl, same⟩
    · rcases read : vops.read file.node file.pos (min len iobufSize) state.disk with ⟨disk, ret, data⟩
      have short : data.length ≤ min len iobufSize := by
        simpa [read] using lawful.short file.node file.pos (min len iobufSize) state.disk
      obtain ⟨later, ok, copied', checked, -⟩ := copyToUser_returns base state.user (fetched buffer data) sound
        (by omega : data.length < 2 ^ 64)
      have read' : vops.read file.node file.pos (min len iobufSize) other.disk = (disk, ret, data) := by
        rw [same.disk, read]
      generalize (if ok then fun addr => if base ≤ addr && addr < base + data.length then
        fetched buffer data (addr - base) else state.user addr else state.user) = user at copied'
      have copiedOther := copied'
      rw [← same.space, ← same.user] at copiedOther
      rw [readLoop_turn turns opened readable empty read (if_neg plain).symm (by omega) copied'] at ran
      rw [readLoop_turn turns (same.opened opened) readable empty read' (if_neg plainDup).symm (by omega) copiedOther]
      have moved := @Same.move _ _ _ _ _ _ { file with pos := file.pos + data.length } same opened disk
      split_ifs at ran ⊢
      · cases ran
        exact ⟨_, rfl, (moved state.space state.user).file, same.space, same.user, rfl⟩
      · cases ran
        exact ⟨_, rfl, moved later user⟩
      · exact ih checked.sound (moved later user)
          (Opened.setFile (show Opened { state with disk } fd file from opened)) readable (by omega) ran
      all_goals
        cases ran
        exact ⟨_, rfl, moved later user⟩

section
variable {disk : δ} {ret : Int} {data : List Nat} {later : Option Mm} {user : Nat → Nat}

/-- The state after a first read, when the copy that follows has left these bytes. -/
def served (state : State δ) (fd : Int) (file : File) (disk : δ) (got : Nat) (space : Option Mm)
    (user : Nat → Nat) : State δ :=
  { SysFile.setFile { state with disk } fd { file with pos := file.pos + got } with space, user }

theorem readLoop_full (turns : Nat) (opened : Opened state fd file) (readable : file.readable = true) (nonempty : len ≠ 0)
    (read : vops.read file.node file.pos (min len iobufSize) state.disk = (disk, ret, data))
    (counts : fd = 2 ∨ data.length = len) (granted : Grants state.space base len true) (small : len < 2 ^ 64)
    (ran : copyToUser state.space state.user (fetched buffer data) base len = some (later, user, true)) :
    readLoop vops fd (turns + 2) state buffer base len 0 = some (served state fd file disk data.length later user, (len : Int)) := by
  have counted : len = if fd = 2 then len else data.length := by
    rcases counts with console | whole
    · rw [if_pos console]
    · split_ifs <;> simp [whole]
  have fits : toInt len = len := by
    have spans : Spans state.space (base + len) len := by
      simpa using Spans.grow (Or.inl rfl) granted small le_rfl
    exact toInt_spans spans
  rw [readLoop_turn (turns + 1) opened readable nonempty read counted le_rfl ran, if_neg nonempty, if_pos rfl]
  by_cases stops : ret = 0
  · rw [if_neg (not_not.mpr stops), Nat.sub_self, readLoop, if_pos rfl]
    simp [finish, nonempty, fits, served]
  · rw [if_pos stops]
    simp [finish, nonempty, fits, served]

theorem readLoop_last (turns : Nat) (plain : fd ≠ 2) (opened : Opened state fd file) (readable : file.readable = true)
    (nonempty : len ≠ 0) (read : vops.read file.node file.pos (min len iobufSize) state.disk = (disk, ret, data))
    (stops : ret ≠ 0) (got : data.length ≠ 0) (short : data.length ≤ len) (granted : Grants state.space base data.length true)
    (small : data.length < 2 ^ 64)
    (ran : copyToUser state.space state.user (fetched buffer data) base data.length = some (later, user, true)) :
    readLoop vops fd (turns + 1) state buffer base len 0 =
      some (served state fd file disk data.length later user, (data.length : Int)) := by
  have fits : toInt data.length = data.length := by
    have spans : Spans state.space (base + data.length) data.length := by
      simpa using Spans.grow (Or.inl rfl) granted small le_rfl
    exact toInt_spans spans
  rw [readLoop_turn turns opened readable nonempty read (if_neg plain).symm short ran, if_neg got, if_pos rfl, if_pos stops]
  simp only [finish, Nat.zero_add, ne_eq, got, not_false_eq_true, if_true, fits, served]

theorem readLoop_refused (turns : Nat) (opened : Opened state fd file) (readable : file.readable = true) (nonempty : len ≠ 0)
    (read : vops.read file.node file.pos (min len iobufSize) state.disk = (disk, ret, data)) {alen : Nat}
    (counts : alen = if fd = 2 then len else data.length) (moves : alen ≠ 0) (short : alen ≤ len)
    (ran : copyToUser state.space state.user (fetched buffer data) base alen = some (later, user, false)) :
    readLoop vops fd (turns + 1) state buffer base len 0 =
      some (served state fd file disk data.length later user, if ret = 0 then -eInval else ret) := by
  rw [readLoop_turn turns opened readable nonempty read counts short ran, if_neg moves, if_neg Bool.false_ne_true]
  simp [finish, served]

theorem readLoop_nothing (turns : Nat) (plain : fd ≠ 2) (opened : Opened state fd file) (readable : file.readable = true)
    (nonempty : len ≠ 0) (sound : Sound state.space)
    (read : vops.read file.node file.pos (min len iobufSize) state.disk = (disk, ret, [])) :
    readLoop vops fd (turns + 1) state buffer base len 0 =
      some (served state fd file disk 0 state.space state.user, ret) := by
  obtain ⟨later, ok, ran, -⟩ := copyToUser_returns base state.user (fetched buffer []) sound (by omega : 0 < 2 ^ 64)
  rw [readLoop_turn turns opened readable nonempty read (if_neg plain).symm (Nat.zero_le _) ran, if_pos List.length_nil]
  simp [finish, served, SysFile.setFile]

end

/-- The code of the first read and the bytes it gives. -/
def firstRead (vops : Vops δ) (state : State δ) (file : File) (len : Nat) : Int × List Nat :=
  (vops.read file.node file.pos (min len iobufSize) state.disk).2

/-- The first read fills what is asked for, and the process may write that much. -/
def Whole (vops : Vops δ) (state : State δ) (file : File) (base len : Nat) : Prop :=
  Grants state.space base len true ∧ (firstRead vops state file len).2.length = len

/-- The code of the first read counts no bytes, or those it gives, which stand at their place already. -/
def Truthful (vops : Vops δ) (state : State δ) (file : File) (base len : Nat) : Prop :=
  (firstRead vops state file len).1 ≤ 0 ∨
    (firstRead vops state file len).1 = (firstRead vops state file len).2.length ∧
      overlay state.user base (firstRead vops state file len).2 = state.user

/-- The process may not write what is asked for, and the first read does not report the end of the file, or bytes
that are not delivered. -/
def Rejected (vops : Vops δ) (state : State δ) (file : File) (base len : Nat) : Prop :=
  ¬Grants state.space base len true ∧ firstRead vops state file len ≠ (0, []) ∧ Truthful vops state file base len

/-- Each piece is accepted, or the first is refused and its code counts nothing that is not there. -/
def Settled (vops : Vops δ) (state : State δ) (file : File) (base len : Nat) : Prop :=
  Accepts state.space base (pieces vops file.node (len + 1) state.disk file.pos len) ∧
      ¬Refuses state.space base (pieces vops file.node (len + 1) state.disk file.pos len) ∨
    Refuses state.space base (pieces vops file.node (len + 1) state.disk file.pos len) ∧ Truthful vops state file base len

theorem unserved_pos {ret : Int} {data : List Nat} : 0 < unserved ret data ↔ 0 < ret := by
  unfold unserved
  split_ifs with none
  · exact iff_of_false (by decide) (by omega)
  · exact Iff.rfl

theorem unserved_eq {ret : Int} {data : List Nat} (counts : 0 < ret) : unserved ret data = ret := by
  unfold unserved
  rw [if_neg]
  omega

theorem position_inj {table : Int → Option File} {got other : Nat}
    (same : Function.update table fd (some { file with pos := file.pos + (got : Nat) }) =
      Function.update table fd (some { file with pos := file.pos + (other : Nat) })) : got = other := by
  have here := congrFun same fd
  simpa using here

/-- Where nothing is delivered, the code of the first read decides. -/
theorem nothing_delivered {after : State δ} {result ret : Int} {disk : δ} {data : List Nat}
    (read : vops.read file.node file.pos (min len iobufSize) state.disk = (disk, ret, data))
    (reads : Reads vops file.node len state.disk file.pos data after.disk)
    (position : after.fdArray = Function.update state.fdArray fd (some { file with pos := file.pos + (data.length : Nat) }))
    (user : after.user = state.user) (short : data.length ≤ len) (sign : 0 < result ↔ 0 < ret) (same : 0 < ret → result = ret) :
    (∃ given, Delivered vops true fd file base len state after result given) ↔
      Truthful vops state file base len ∧ (firstRead vops state file len = (0, []) → result = 0) := by
  have first : firstRead vops state file len = (ret, data) := by rw [firstRead, read]
  rw [Truthful, first]
  constructor
  · rintro ⟨given, delivered⟩
    have count := position_inj (position.symm.trans delivered.position)
    obtain rfl := reads.unique delivered.reads count
    refine ⟨?_, fun atEnd => delivered.ended rfl (by rw [read, atEnd])⟩
    by_cases none : ret ≤ 0
    · exact .inl none
    · have counts : 0 < ret := by omega
      obtain ⟨number, moved⟩ := delivered.counted (sign.mpr counts)
      exact .inr ⟨(same counts).symm.trans number, moved.symm.trans user⟩
  · rintro ⟨truthful, ended⟩
    refine ⟨data, reads, position, short, fun positive => ?_, fun _ => user, fun _ atEnd => ended (by rw [read] at atEnd; exact atEnd)⟩
    have counts := sign.mp positive
    obtain ⟨number, there⟩ := truthful.resolve_left (by omega)
    exact ⟨(same counts).trans number, user.trans there.symm⟩

/-- Through any other descriptor the bytes are delivered where each piece is accepted, or the first is refused and
its code counts nothing that is not there. -/
theorem plain_delivers (lawful : LawfulReads vops) (plain : fd ≠ 2) (sound : Sound state.space)
    (opened : Opened state fd file) (readable : file.readable = true) (small : len < 2 ^ 64) (nonempty : len ≠ 0) :
    ∃ after result, readLoop vops fd (len + 1) state buffer base len 0 = some (after, result) ∧
      (Refuses state.space base (pieces vops file.node (len + 1) state.disk file.pos len) ∨ 0 < result) ∧
      ((∃ data, Delivered vops true fd file base len state after result data) ↔ Settled vops state file base len) := by
  obtain ⟨after, result, data, n, ran, within, short, more, accepts, refuses⟩ :=
    @readLoop_returns _ _ _ _ _ buffer base _ 0 lawful plain (len + 1) sound opened readable (Or.inl rfl) small
      (Nat.lt_succ_self len)
  refine ⟨after, result, ran, ?_⟩
  rw [Settled, ← accepts, ← refuses]
  by_cases zero : n = 0
  · rcases read : vops.read file.node file.pos (min len iobufSize) state.disk with ⟨disk, ret, got⟩
    obtain ⟨code, rfl⟩ := more.nothing nonempty (by omega) disk ret got read
    have user : after.user = state.user := by
      rw [more.user, zero, List.take_zero, overlay_nil]
    refine ⟨.inl zero, ?_⟩
    rw [nothing_delivered read more.reads more.position user short (by rw [code, unserved_pos]) fun counts => by
      rw [code, unserved_eq counts]]
    have first : firstRead vops state file len = (ret, data) := by rw [firstRead, read]
    have ended : firstRead vops state file len = (0, []) → result = 0 := by
      rw [first]
      intro atEnd
      obtain ⟨rfl, rfl⟩ := Prod.mk.inj atEnd
      rw [code, unserved_none]
    simp only [zero, not_true_eq_false, and_false, true_and, false_or]
    exact and_iff_left ended
  · have counted := more.counted (by omega)
    refine ⟨.inr (by omega), ?_⟩
    simp only [zero, not_false_eq_true, and_true, false_and, or_false]
    constructor
    · rintro ⟨given, delivered⟩
      have same := position_inj (more.position.symm.trans delivered.position)
      have whole := (delivered.counted (by omega)).1
      omega
    · intro whole
      refine ⟨data, more.reads, more.position, short, fun positive => ⟨by omega, ?_⟩, by omega, fun _ atEnd => ?_⟩
      · rw [more.user, whole, List.take_length]
      · rcases read : vops.read file.node file.pos (min len iobufSize) state.disk with ⟨disk, ret, got⟩
        rw [read] at atEnd
        cases atEnd
        have ended := @readLoop_nothing _ _ _ _ _ buffer base _ _ _ len plain opened readable nonempty sound read
        rw [ended] at ran
        cases ran
        rfl

/-- Through descriptor 2 all that is asked for is counted, whatever the file gives. -/
theorem console_delivers (lawful : LawfulReads vops) (turns : Nat) (sound : Sound state.space)
    (opened : Opened state 2 file) (readable : file.readable = true) (small : len < 2 ^ 64) (nonempty : len ≠ 0) :
    ∃ after result, readLoop vops 2 (turns + 2) state buffer base len 0 = some (after, result) ∧
      (Grants state.space base len true ∨ (0 < result → 0 < (firstRead vops state file len).1)) ∧
      ((∃ data, Delivered vops true 2 file base len state after result data) ↔
        Whole vops state file base len ∨ Rejected vops state file base len) := by
  rcases read : vops.read file.node file.pos (min len iobufSize) state.disk with ⟨disk, ret, data⟩
  have first : firstRead vops state file len = (ret, data) := by rw [firstRead, read]
  have short : data.length ≤ min len iobufSize := by
    simpa [read] using lawful.short file.node file.pos (min len iobufSize) state.disk
  have given : Reads vops file.node len state.disk file.pos data disk := by
    simpa using Reads.call read Reads.done
  obtain ⟨later, ok, ran, checked, grants⟩ := copyToUser_returns base state.user (fetched buffer data) sound small
  cases ok with
  | true =>
    have granted := grants.mp rfl
    refine ⟨_, _, readLoop_full turns opened readable nonempty read (Or.inl rfl) granted small ran, .inl granted, ?_⟩
    have notRejected : ¬Rejected vops state file base len := fun rejected => rejected.1 granted
    rw [or_iff_left notRejected, Whole, first]
    constructor
    · rintro ⟨other, delivered⟩
      have same := position_inj delivered.position
      have counted := (delivered.counted (by omega)).1
      exact ⟨granted, by dsimp only; omega⟩
    · rintro ⟨-, whole⟩
      dsimp only at whole
      refine ⟨data, given, rfl, by omega, fun _ => ⟨by omega, ?_⟩, by omega, fun _ atEnd => ?_⟩
      · subst whole
        exact overlay_fetched state.user buffer base data
      · rw [read] at atEnd
        cases atEnd
        exact absurd whole.symm nonempty
  | false =>
    have refused : ¬Grants state.space base len true := fun granted => by simpa using grants.mpr granted
    have positive : 0 < (if ret = 0 then -eInval else ret) ↔ 0 < ret := by
      split_ifs with zero
      · exact iff_of_false (by decide) (by omega)
      · exact Iff.rfl
    refine ⟨_, _, readLoop_refused (turns + 1) opened readable nonempty read (if_pos rfl).symm nonempty le_rfl ran,
      .inr (by rw [first]; exact positive.mp), ?_⟩
    have notWhole : ¬Whole vops state file base len := fun whole => refused whole.1
    have delivers := @nothing_delivered _ vops state file 2 base len (served state 2 file disk data.length later state.user)
      (if ret = 0 then -eInval else ret) ret disk data read given rfl rfl (by omega) positive fun counts => if_neg (by omega)
    have goes : (firstRead vops state file len = (0, []) → (if ret = 0 then -eInval else ret) = 0) ↔
        firstRead vops state file len ≠ (0, []) := by
      refine ⟨fun ended atEnd => ?_, fun goes atEnd => absurd atEnd goes⟩
      have zero := ended atEnd
      rw [first] at atEnd
      obtain ⟨rfl, -⟩ := Prod.mk.inj atEnd
      cases zero
    rw [goes, and_comm] at delivers
    rw [or_iff_right notWhole, Rejected, and_iff_right refused]
    exact delivers

/-- What a process sees of two states through a descriptor each. -/
structure Alike (fd dup : Int) (state other : State δ) : Prop where
  file : fd2file other dup = fd2file state fd
  user : other.user = state.user
  disk : other.disk = state.disk

theorem Same.alike {other : State δ} (same : Same fd dup state other) : Alike fd dup state other :=
  ⟨same.file, same.user, same.disk⟩

theorem Alike.symm {other : State δ} (alike : Alike fd dup state other) : Alike dup fd other state :=
  ⟨alike.file.symm, alike.user.symm, alike.disk.symm⟩

theorem served_alike {disk : δ} {got : Nat} {later after : Option Mm} {user : Nat → Nat}
    (opened : Opened state fd file) (openedDup : Opened state dup file) :
    Alike fd dup (served state fd file disk got later user) (served state dup file disk got after user) := by
  have one : Opened { state with disk } fd file := opened
  have other : Opened { state with disk } dup file := openedDup
  exact ⟨other.fd2file_setFile.trans one.fd2file_setFile.symm, rfl, rfl⟩

theorem console_alike (lawful : LawfulReads vops) (plain : fd ≠ 2) (sound : Sound state.space)
    (opened : Opened state fd file) (console : Opened state 2 file) (readable : file.readable = true)
    (small : len < 2 ^ 64) (nonempty : len ≠ 0)
    (moves : Whole vops state file base len ∨ Rejected vops state file base len ∧
      (Refuses state.space base (pieces vops file.node (len + 1) state.disk file.pos len) ∨ 0 < (firstRead vops state file len).1)) :
    ∃ after other result, readLoop vops fd (len + 1) state buffer base len 0 = some (after, result) ∧
      readLoop vops 2 (len + 1) state buffer base len 0 = some (other, result) ∧ Alike fd 2 after other := by
  obtain ⟨turns, turnsEq⟩ : ∃ turns, len + 1 = turns + 2 := ⟨len - 1, by omega⟩
  rcases read : vops.read file.node file.pos (min len iobufSize) state.disk with ⟨disk, ret, data⟩
  have first : firstRead vops state file len = (ret, data) := by rw [firstRead, read]
  have short : data.length ≤ min len iobufSize := by
    simpa [read] using lawful.short file.node file.pos (min len iobufSize) state.disk
  obtain ⟨later, ok, ran, checked, grants⟩ := copyToUser_returns base state.user (fetched buffer data) sound small
  rw [turnsEq] at moves ⊢
  rcases moves with ⟨granted, whole⟩ | ⟨⟨refused, goes, truthful⟩, refuses⟩
  · have accepted : ok = true := grants.mpr granted
    rw [first] at whole
    subst accepted
    exact ⟨_, _, _, readLoop_full turns opened readable nonempty read (Or.inr whole) granted small ran,
      readLoop_full turns console readable nonempty read (Or.inl rfl) granted small ran, served_alike opened console⟩
  · have rejected : ok = false := by
      cases ok with
      | false => rfl
      | true => exact absurd (grants.mp rfl) refused
    subst rejected
    rw [first] at goes refuses
    rw [Truthful, first] at truthful
    have second := readLoop_refused (turns + 1) console readable nonempty read (if_pos rfl).symm nonempty le_rfl ran
    by_cases nothing : data = []
    · subst nothing
      have failed : ret ≠ 0 := fun zero => goes (by rw [zero])
      rw [if_neg failed] at second
      exact ⟨_, _, _, readLoop_nothing (turns + 1) plain opened readable nonempty sound read, second,
        served_alike opened console⟩
    · have some' : data.length ≠ 0 := by simpa using nothing
      obtain ⟨after, ok, ran', checked', grants'⟩ := copyToUser_returns base state.user (fetched buffer data) sound
        (by omega : data.length < 2 ^ 64)
      cases ok with
      | false =>
        exact ⟨_, _, _, readLoop_refused (turns + 1) opened readable nonempty read (if_neg plain).symm some' (by omega) ran',
          second, served_alike opened console⟩
      | true =>
        -- the other read delivers bytes that stand there already, and counts as many
        have counts : 0 < ret := by
          refine refuses.resolve_left fun refuses => ?_
          rw [pieces, if_neg nonempty, read] at refuses
          dsimp only at refuses
          rw [if_neg nothing] at refuses
          split_ifs at refuses <;> exact refuses (grants'.mp rfl)
        obtain ⟨number, there⟩ := truthful.resolve_left (Int.not_le.mpr counts)
        dsimp only at number there
        have stops : ret ≠ 0 := by omega
        rw [if_neg stops, number] at second
        have delivered := readLoop_last (turns + 1) plain opened readable nonempty read stops some' (by omega)
          (grants'.mp rfl) (by omega) ran'
        rw [if_pos rfl, overlay_fetched, there] at delivered
        exact ⟨_, _, _, delivered, second, served_alike opened console⟩

/-- A read through `fd` delivers what it takes from the file, and one through `dup` does the same. -/
def ReadsProperly (vops : Vops δ) (room : Bool) (buffer : Nat → Nat) (state : State δ) (fd dup : Int) (file : File)
    (base len : Nat) : Prop :=
  ∃ turns after other result, sysfileRead vops turns room buffer state fd base len = some (after, result) ∧
    sysfileRead vops turns room buffer state dup base len = some (other, result) ∧
    (∃ data, Delivered vops room fd file base len state after result data) ∧
    (∃ data, Delivered vops room dup file base len state other result data) ∧ Alike fd dup after other

theorem sysfileRead_enters (opened : Opened state fd file) (readable : file.readable = true) (nonempty : len ≠ 0)
    (turns : Nat) :
    sysfileRead vops turns true buffer state fd base len = readLoop vops fd turns state buffer base len 0 := by
  unfold Opened at opened
  simp [sysfileRead, nonempty, fileTestfd, opened, readable]

theorem unmoved (opened : Opened state fd file) {result : Int} (code : result ≤ 0)
    (atEnd : room → result = 0) : Delivered vops room fd file base len state state result [] :=
  ⟨Reads.done, opened.unchanged, Nat.zero_le _, by omega, fun _ => rfl, fun room _ => atEnd room⟩

theorem ReadsProperly.symm (proper : ReadsProperly vops room buffer state fd dup file base len) :
    ReadsProperly vops room buffer state dup fd file base len := by
  obtain ⟨turns, after, other, result, ran, ranDup, one, second, alike⟩ := proper
  exact ⟨turns, other, after, result, ranDup, ran, second, one, alike.symm⟩

/-- What `ReadsProperly` says of the two runs that there are. -/
theorem readsProperly_iff {turns : Nat} {after other : State δ} {result count : Int}
    (opened : Opened state fd file) (openedDup : Opened state dup file) (readable : file.readable = true)
    (nonempty : len ≠ 0)
    (ran : readLoop vops fd turns state buffer base len 0 = some (after, result))
    (ranDup : readLoop vops dup turns state buffer base len 0 = some (other, count)) :
    ReadsProperly vops true buffer state fd dup file base len ↔
      count = result ∧ (∃ data, Delivered vops true fd file base len state after result data) ∧
        (∃ data, Delivered vops true dup file base len state other count data) ∧ Alike fd dup after other := by
  constructor
  · rintro ⟨more, after', other', result', again, againDup, one, second, alike⟩
    rw [sysfileRead_enters opened readable nonempty] at again
    rw [sysfileRead_enters openedDup readable nonempty] at againDup
    cases readLoop_agree ran again
    cases readLoop_agree ranDup againDup
    exact ⟨rfl, one, second, alike⟩
  · rintro ⟨rfl, one, second, alike⟩
    exact ⟨turns, after, other, count, (sysfileRead_enters opened readable nonempty _).trans ran,
      (sysfileRead_enters openedDup readable nonempty _).trans ranDup, one, second, alike⟩

theorem Whole.settled (whole : Whole vops state file base len) (nonempty : len ≠ 0) : Settled vops state file base len := by
  obtain ⟨granted, fills⟩ := whole
  rcases read : vops.read file.node file.pos (min len iobufSize) state.disk with ⟨disk, ret, data⟩
  rw [firstRead, read] at fills
  simp only at fills
  have some' : data ≠ [] := by
    rintro rfl
    exact nonempty fills.symm
  have nothingLeft : ∀ turns disk pos, pieces vops file.node turns disk pos 0 = [] := by
    intro turns disk pos
    cases turns <;> simp [pieces]
  have one : pieces vops file.node (len + 1) state.disk file.pos len = [data] := by
    rw [pieces, if_neg nonempty, read]
    dsimp only
    rw [if_neg some', fills, Nat.sub_self, nothingLeft, ite_self]
  rw [Settled, one]
  refine Or.inl ⟨⟨?_, trivial⟩, fun refused => refused ?_⟩ <;> rwa [fills]

/-- Where the first read ends the loop, its bytes are the only piece. -/
theorem Rejected.settled (rejected : Rejected vops state file base len) (nonempty : len ≠ 0)
    (moves : Refuses state.space base (pieces vops file.node (len + 1) state.disk file.pos len) ∨
      0 < (firstRead vops state file len).1) : Settled vops state file base len := by
  by_cases refuses : Refuses state.space base (pieces vops file.node (len + 1) state.disk file.pos len)
  · exact Or.inr ⟨refuses, rejected.2.2⟩
  · have counts := moves.resolve_left refuses
    rcases read : vops.read file.node file.pos (min len iobufSize) state.disk with ⟨disk, ret, data⟩
    rw [firstRead, read] at counts
    refine Or.inl ⟨?_, refuses⟩
    rw [pieces, if_neg nonempty, read] at refuses ⊢
    dsimp only at refuses counts ⊢
    have stops : ret ≠ 0 := by omega
    split_ifs at refuses ⊢
    · trivial
    · exact ⟨not_not.mp refuses, trivial⟩

theorem plain_readsProperly (lawful : LawfulReads vops) (plain : fd ≠ 2) (plainDup : dup ≠ 2) (sound : Sound state.space)
    (opened : Opened state fd file) (openedDup : Opened state dup file) (readable : file.readable = true)
    (small : len < 2 ^ 64) (nonempty : len ≠ 0) :
    ReadsProperly vops true buffer state fd dup file base len ↔ Settled vops state file base len := by
  obtain ⟨after, result, ran, -, one⟩ :=
    @plain_delivers _ _ _ _ _ buffer base _ lawful plain sound opened readable small nonempty
  obtain ⟨other, count, ranDup, -, second⟩ :=
    @plain_delivers _ _ _ _ _ buffer base _ lawful plainDup sound openedDup readable small nonempty
  obtain ⟨other', again, same⟩ := readLoop_same lawful (len + 1) sound
    (⟨openedDup.trans opened.symm, rfl, rfl, rfl⟩ : Same fd dup state state) opened readable plain plainDup small ran
  cases again.symm.trans ranDup
  rw [readsProperly_iff opened openedDup readable nonempty ran ranDup, one, second]
  exact ⟨fun proper => proper.2.1, fun settled => ⟨rfl, settled, settled, same.alike⟩⟩

theorem console_readsProperly (lawful : LawfulReads vops) (sound : Sound state.space)
    (console : Opened state 2 file) (readable : file.readable = true) (small : len < 2 ^ 64) (nonempty : len ≠ 0) :
    ReadsProperly vops true buffer state 2 2 file base len ↔
      Whole vops state file base len ∨ Rejected vops state file base len := by
  obtain ⟨after, result, ran, -, delivers⟩ :=
    @console_delivers _ _ _ _ buffer base _ lawful (len - 1) sound console readable small nonempty
  rw [readsProperly_iff console console readable nonempty ran ran, delivers]
  exact ⟨fun proper => proper.2.1, fun moves => ⟨rfl, moves, moves, rfl, rfl, rfl⟩⟩

theorem mixed_readsProperly (lawful : LawfulReads vops) (plain : fd ≠ 2) (sound : Sound state.space)
    (opened : Opened state fd file) (console : Opened state 2 file) (readable : file.readable = true)
    (small : len < 2 ^ 64) (nonempty : len ≠ 0) :
    ReadsProperly vops true buffer state fd 2 file base len ↔
      Whole vops state file base len ∨ Rejected vops state file base len ∧
        (Refuses state.space base (pieces vops file.node (len + 1) state.disk file.pos len) ∨
          0 < (firstRead vops state file len).1) := by
  obtain ⟨after, result, ran, sign, one⟩ :=
    @plain_delivers _ _ _ _ _ buffer base _ lawful plain sound opened readable small nonempty
  obtain ⟨other, count, ranDup, signDup, second⟩ :=
    @console_delivers _ _ _ _ buffer base _ lawful (len - 1) sound console readable small nonempty
  rw [show len - 1 + 2 = len + 1 by omega] at ranDup
  rw [readsProperly_iff opened console readable nonempty ran ranDup, one, second]
  constructor
  · rintro ⟨sameResult, delivered, moved, alike⟩
    refine moved.imp_right fun rejected => ⟨rejected, sign.imp_right fun counted => ?_⟩
    rw [← sameResult] at counted
    exact signDup.resolve_left rejected.1 counted
  · intro moves
    obtain ⟨after', other', result', again, againDup, alike⟩ :=
      @console_alike _ _ _ _ _ buffer base _ lawful plain sound opened console readable small nonempty moves
    cases again.symm.trans ran
    cases againDup.symm.trans ranDup
    refine ⟨rfl, ?_, moves.imp_right And.left, alike⟩
    rcases moves with whole | ⟨rejected, refuses⟩
    · exact whole.settled nonempty
    · exact rejected.settled nonempty refuses

/-- `sysfile_read` delivers the bytes that it takes from the file, alike through a
descriptor and its duplicate, exactly where it does not come to read; where
neither descriptor is 2 and the process may write each piece of the file that is
read, or not even the first, whose code counts no bytes then; or where one is 2 and
the first read fills all that is asked for, or the process may not write it and the
file is not at its end. -/
theorem sysfile_read_delivers_iff (lawful : LawfulReads vops) (sound : Sound state.space)
    (opened : Opened state fd file) (openedDup : Opened state dup file) (readable : file.readable = true)
    (small : len < 2 ^ 64) :
    ReadsProperly vops room buffer state fd dup file base len ↔
      len = 0 ∨ room = false ∨
        (fd ≠ 2 ∧ dup ≠ 2 ∧ Settled vops state file base len) ∨
        ((fd = 2 ∨ dup = 2) ∧
          (Whole vops state file base len ∨ Rejected vops state file base len ∧
            (fd = dup ∨ Refuses state.space base (pieces vops file.node (len + 1) state.disk file.pos len) ∨
              0 < (firstRead vops state file len).1))) := by
  have tested : fileTestfd state fd true false = true := by
    unfold Opened at opened
    simp [fileTestfd, opened, readable]
  have testedDup : fileTestfd state dup true false = true := by
    unfold Opened at openedDup
    simp [fileTestfd, openedDup, readable]
  have start : Alike fd dup state state := ⟨openedDup.trans opened.symm, rfl, rfl⟩
  by_cases empty : len = 0
  · refine iff_of_true ⟨0, state, state, 0, if_pos empty, if_pos empty, ⟨[], unmoved opened le_rfl fun _ => rfl⟩,
      ⟨[], unmoved openedDup le_rfl fun _ => rfl⟩, start⟩ (Or.inl empty)
  cases room with
  | false =>
    refine iff_of_true ⟨0, state, state, -eNoMem, ?_, ?_, ⟨[], unmoved opened (by decide) (by simp)⟩,
      ⟨[], unmoved openedDup (by decide) (by simp)⟩, start⟩ (Or.inr (Or.inl rfl))
    · simp [sysfileRead, empty, tested]
    · simp [sysfileRead, empty, testedDup]
  | true =>
    rw [or_iff_right empty, or_iff_right (by simp : ¬true = false)]
    by_cases console : fd = 2 <;> by_cases consoleDup : dup = 2
    · subst console consoleDup
      simp [console_readsProperly lawful sound opened readable small empty]
    · subst console
      have swap : ReadsProperly vops true buffer state 2 dup file base len ↔
          ReadsProperly vops true buffer state dup 2 file base len := ⟨ReadsProperly.symm, ReadsProperly.symm⟩
      rw [swap, mixed_readsProperly lawful consoleDup sound openedDup opened readable small empty]
      simp [Ne.symm consoleDup]
    · subst consoleDup
      rw [mixed_readsProperly lawful console sound opened openedDup readable small empty]
      simp [console]
    · rw [plain_readsProperly lawful console consoleDup sound opened openedDup readable small empty]
      simp [console, consoleDup]

/-- A file of two bytes. -/
def letter : Vops Unit :=
  ⟨fun _ pos len disk => (disk, 0, ([7, 9].drop pos.toNat).take len), fun _ _ _ disk => (disk, 0, 0)⟩

/-- A process with one page of data, and the letter open as 2 and as 3. -/
def reader : State Unit where
  space := some ⟨[⟨0x800000, 0x801000, ⟨true, true, false, false⟩⟩], none⟩
  user _ := 0
  fdArray fd := if fd = 2 ∨ fd = 3 ∨ fd = 4 then some ⟨0, 0, true, false⟩ else none
  disk := ()

theorem reader_sound : Sound reader.space := writer_sound

theorem reader_grants (positive : 0 < len) (small : len ≤ 4096) : Grants reader.space 0x800000 len true := by
  refine ⟨positive, by decide, by unfold usertop; omega, fun byte low high => ?_⟩
  exact ⟨_, List.mem_singleton.mpr rfl, holds_iff.mpr ⟨low, by simp only; omega⟩, rfl, by simp⟩

theorem letter_lawful : LawfulReads letter := by
  constructor
  simp [letter]

/-- Through the descriptors 3 and 4 both bytes are delivered. -/
theorem sysfile_read_delivers_letter :
    ReadsProperly letter true (fun _ => 0) reader 3 4 ⟨0, 0, true, false⟩ 0x800000 5 := by
  refine (sysfile_read_delivers_iff letter_lawful reader_sound (by simp [Opened, fd2file, testfd, filesStructNentry, reader])
    (by simp [Opened, fd2file, testfd, filesStructNentry, reader]) rfl (by decide)).mpr (Or.inr (Or.inr (Or.inl ?_)))
  have granted : Grants reader.space 0x800000 2 true := reader_grants (by decide) (by decide)
  exact ⟨by decide, by decide, Or.inl ⟨⟨granted, trivial⟩, fun refused => refused granted⟩⟩

/-- Through descriptor 2 five are counted. -/
theorem file_read_overcounts :
    ¬ReadsProperly letter true (fun _ => 0) reader 2 3 ⟨0, 0, true, false⟩ 0x800000 5 := by
  intro proper
  have moves := (mixed_readsProperly letter_lawful (by decide) reader_sound
    (by simp [Opened, fd2file, testfd, filesStructNentry, reader])
    (by simp [Opened, fd2file, testfd, filesStructNentry, reader]) rfl (by decide) (by decide)).mp proper.symm
  rcases moves with ⟨-, fills⟩ | ⟨⟨refused, -⟩, -⟩
  · exact absurd fills (by decide)
  · exact refused (reader_grants (by decide) (by decide))

/-- A keyboard whose code is the number of the characters. -/
def keyboard : Vops Unit := ⟨fun _ _ len disk => (disk, len, List.replicate len 7), fun _ _ _ disk => (disk, -eInval, 0)⟩

theorem keyboard_lawful : LawfulReads keyboard := by
  constructor
  simp [keyboard]

/-- A character that the process may not have is counted all the same. -/
theorem refused_key_counted :
    ¬ReadsProperly keyboard true (fun _ => 0) reader 3 4 ⟨0, 0, true, false⟩ 0x900000 1 := by
  intro proper
  have settled := (plain_readsProperly keyboard_lawful (by decide) (by decide) reader_sound
    (by simp [Opened, fd2file, testfd, filesStructNentry, reader])
    (by simp [Opened, fd2file, testfd, filesStructNentry, reader]) rfl (by decide) (by decide)).mp proper
  rcases settled with ⟨⟨granted, -⟩, -⟩ | ⟨-, few | ⟨-, there⟩⟩
  · obtain ⟨-, -, -, held⟩ := granted
    obtain ⟨vma, member, holds, -⟩ := held 0x900000 le_rfl (by decide)
    rw [List.mem_singleton.mp member] at holds
    exact absurd holds (by decide)
  · exact absurd few (by decide)
  · have here := congrFun there 0x900000
    exact absurd here (by decide)

end Ucore.SysFileProofs
