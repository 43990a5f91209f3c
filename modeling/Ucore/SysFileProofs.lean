import Ucore.SysFile
import Ucore.UserMemProofs

/-! When the loops of `sysfile_read` and `sysfile_write` end and what they have
moved by then. A turn of a loop moves what one call on the inode moves; the
calls of a run follow each other in the file, and their data in the memory of
the process. -/
namespace Ucore.SysFileProofs
open UserMem UserMemProofs SysFile
open Paging (eInval eNoMem usertop userbase)

variable {δ : Type} {vops : Vops δ} {state : State δ} {space : Option Mm} {file : File} {fd : Int}
  {buffer : Nat → Nat} {base len copied : Nat} {room : Bool}

/-- `vop_write` gives an error code or 0, and takes no more than it is given. -/
structure LawfulWrites (vops : Vops δ) : Prop where
  short : ∀ node pos data disk, (vops.write node pos data disk).2.2 ≤ data.length
  code : ∀ node pos data disk, (vops.write node pos data disk).2.1 ≤ 0

/-- Calls of `vop_write` that follow each other in the file have taken these bytes. -/
inductive Writes (vops : Vops δ) (node : Nat) : δ → Int → List Nat → δ → Prop
  | done {disk pos} : Writes vops node disk pos [] disk
  | call {disk pos data between ret used more last}
      (first : vops.write node pos data disk = (between, ret, used))
      (rest : Writes vops node between (pos + used) more last) :
      Writes vops node disk pos (data.take used ++ more) last

/-- The bytes of an address space from `base` on. -/
def segment (user : Nat → Nat) (base n : Nat) : List Nat := (List.range n).map fun i => user (base + i)

theorem segment_take {user : Nat → Nat} {n used : Nat} (short : used ≤ n) :
    (segment user base n).take used = segment user base used := by
  simp [segment, ← List.map_take, List.take_range, short]

theorem segment_append (user : Nat → Nat) (base n more : Nat) :
    segment user base n ++ segment user (base + n) more = segment user base (n + more) := by
  simp [segment, List.range_add, Nat.add_assoc]

/-! ## Sizes -/

def lowest : Option Mm → Nat
  | some _ => userbase
  | none => kernbase

def highest : Option Mm → Nat
  | some _ => usertop
  | none => kerntop

/-- `copied` bytes up to `base` lie in the address space, so that their number is an `int`. -/
def Spans (space : Option Mm) (base copied : Nat) : Prop :=
  copied = 0 ∨ (lowest space + copied ≤ base ∧ base ≤ highest space)

theorem grants_bounds {write : Bool} (grants : Grants space base len write) (small : len < 2 ^ 64) :
    0 < len ∧ lowest space ≤ base ∧ base + len ≤ highest space := by
  cases space with
  | some mm => exact ⟨grants.1, grants.2.1, grants.2.2.1⟩
  | none =>
    simp only [Grants, kernAccess, Bool.and_eq_true, decide_eq_true_eq] at grants
    simp only [lowest, highest]
    unfold word kerntop kernbase at *
    omega

theorem Spans.grow {write : Bool} {used : Nat} (spans : Spans space base copied)
    (grants : Grants space base len write) (small : len < 2 ^ 64) (short : used ≤ len) :
    Spans space (base + used) (copied + used) := by
  have bounds := grants_bounds grants small
  rcases spans with nothing | ⟨low, high⟩
  · exact Or.inr ⟨by omega, by omega⟩
  · exact Or.inr ⟨by omega, by omega⟩

theorem spans_checked {later : Option Mm} (spans : Spans space base copied) (checked : Checked space later) :
    Spans later base copied := by
  cases checked <;> exact spans

theorem highest_lt (space : Option Mm) : highest space < 2 ^ 64 ∧ highest space < lowest space + 2 ^ 31 := by
  cases space with
  | some mm => exact (by decide : usertop < 2 ^ 64 ∧ usertop < userbase + 2 ^ 31)
  | none => exact (by decide : kerntop < 2 ^ 64 ∧ kerntop < kernbase + 2 ^ 31)

theorem toInt_spans (spans : Spans space base copied) : toInt copied = copied := by
  have small : copied < 2 ^ 31 := by
    have top := highest_lt space
    rcases spans with nothing | ⟨low, high⟩ <;> omega
  simp only [toInt, BitVec.toInt_eq_toNat_bmod, BitVec.toNat_ofNat, Int.bmod_def]
  omega

/-! ## Writing -/

theorem copyFromUser_returns (base : Nat) (user dst : Nat → Nat) (sound : Sound space) (small : len < 2 ^ 64) :
    ∃ later copy ok, copyFromUser space user dst base len false = some (later, copy, ok) ∧
      Checked space later ∧ (ok ↔ Grants space base len false) ∧
      (ok → (List.range len).map copy = segment user base len) := by
  obtain ⟨later, ok, ran, checked, grants⟩ := check_grants base false sound small
  cases ok with
  | false => exact ⟨later, dst, false, by simp [copyFromUser, ran], checked, grants, by simp⟩
  | true =>
    have reads := (grants.mp rfl).readable small
    have bounds := grants_bounds (grants.mp rfl) small
    have top := highest_lt space
    have fetched : ∀ i < len, loadByte later user base len (base + i) = some (user (base + i)) := by
      intro i below
      have read := reads i below
      rw [← checked.readable] at read
      simp [loadByte, read, below]
    obtain ⟨copy, wrote, inside, -⟩ := memcpy_returns dst 0 fetched (by omega)
    refine ⟨later, copy, true, by simp [copyFromUser, ran, wrote], checked, grants, fun _ => ?_⟩
    refine List.map_congr_left fun i member => ?_
    simpa using inside i (List.mem_range.mp member)

/-- The open file of a descriptor. -/
def Opened (state : State δ) (fd : Int) (file : File) : Prop := fd2file state fd = some file

/-- What the loop has done behind `copied` bytes: `n` more from `base` on are in the
file, whose position is behind them, and the number of all is returned, or an
error or 0 where that is none. -/
structure WroteMore (vops : Vops δ) (fd : Int) (file : File) (base copied n : Nat)
    (before after : State δ) (result : Int) : Prop where
  writes : Writes vops file.node before.disk file.pos (segment before.user base n) after.disk
  position : after.fdArray = Function.update before.fdArray fd (some { file with pos := file.pos + n })
  user : after.user = before.user
  counted : copied + n ≠ 0 → result = (copied + n : Nat)
  nothing : copied + n = 0 → result ≤ 0

theorem finish_returns (state : State δ) {ret : Int} (spans : Spans space base copied) (code : ret ≤ 0) :
    ∃ result, finish state copied ret = (state, result) ∧ (copied ≠ 0 → result = copied) ∧
      (copied = 0 → result ≤ 0) := by
  refine ⟨_, rfl, fun moved => ?_, fun nothing => ?_⟩
  · rw [if_pos moved, toInt_spans spans]
  · rw [if_neg (by omega)]
    exact code

theorem Opened.setFile {other : File} (opened : Opened state fd file) :
    Opened (SysFile.setFile state fd other) fd other := by
  unfold Opened fd2file at opened ⊢
  split_ifs at opened ⊢
  simp [SysFile.setFile]

theorem Opened.unchanged (opened : Opened state fd file) :
    state.fdArray = Function.update state.fdArray fd (some { file with pos := file.pos + (0 : Nat) }) := by
  unfold Opened fd2file at opened
  split_ifs at opened
  funext other
  by_cases same : other = fd
  · subst same
    simp [opened]
  · simp [same]

theorem fileWrite_opened (vops : Vops δ) (opened : Opened state fd file) (writable : file.writable = true)
    {disk : δ} {ret : Int} {used : Nat}
    (wrote : vops.write file.node file.pos ((List.range len).map buffer) state.disk = (disk, ret, used)) :
    fileWrite vops state fd buffer len =
      (SysFile.setFile { state with disk } fd { file with pos := file.pos + used }, ret, used) := by
  unfold Opened at opened
  simp [fileWrite, opened, writable, wrote]

theorem writeLoop_returns (lawful : LawfulWrites vops) (served : fd = 1 ∨ fd = 2) (turns : Nat)
    (sound : Sound state.space) (opened : Opened state fd file) (writable : file.writable = true)
    (spans : Spans state.space base copied) (small : len < 2 ^ 64) (enough : len < turns) :
    ∃ after result n, writeLoop vops fd turns state buffer base len copied = some (after, result) ∧
      n ≤ len ∧ WroteMore vops fd file base copied n state after result := by
  induction turns generalizing state file buffer base len copied with
  | zero => omega
  | succ turns ih =>
    rw [writeLoop]
    by_cases empty : len = 0
    · rw [if_pos empty]
      obtain ⟨result, finished, counted, nothing⟩ := finish_returns state spans le_rfl
      rw [finished]
      exact ⟨state, result, 0, rfl, Nat.zero_le _, Writes.done, opened.unchanged, rfl, counted, nothing⟩
    · rw [if_neg empty]
      obtain ⟨alen, alenEq⟩ : ∃ alen, alen = if len < iobufSize then len else iobufSize := ⟨_, rfl⟩
      have bounds : 0 < alen ∧ alen ≤ len := by
        unfold iobufSize at alenEq
        split_ifs at alenEq <;> omega
      rw [← alenEq]
      obtain ⟨later, copy, ok, ran, checked, grants, same⟩ :=
        copyFromUser_returns base state.user buffer sound (by omega : alen < 2 ^ 64)
      simp only [ran, Option.bind_eq_bind, Option.bind_some]
      cases ok with
      | false =>
        obtain ⟨result, finished, counted, nothing⟩ :=
          finish_returns { state with space := later } spans (by decide : -eInval ≤ 0)
        simp only [Bool.not_false, if_true, finished]
        exact ⟨_, result, 0, rfl, Nat.zero_le _, Writes.done, opened.unchanged, rfl, counted, nothing⟩
      | true =>
        have granted := grants.mp rfl
        rcases wrote : vops.write file.node file.pos ((List.range alen).map copy) state.disk with ⟨disk, ret, used⟩
        have short : used ≤ alen := by simpa [wrote] using lawful.short file.node file.pos ((List.range alen).map copy) state.disk
        have code : ret ≤ 0 := by simpa [wrote] using lawful.code file.node file.pos ((List.range alen).map copy) state.disk
        have opened' : Opened { state with space := later } fd file := opened
        have grown := spans.grow granted (by omega) short
        have taken : Writes vops file.node state.disk file.pos (segment state.user base used) disk := by
          have call := Writes.call wrote Writes.done
          rwa [List.append_nil, same rfl, segment_take short] at call
        simp only [Bool.not_true, Bool.false_eq_true, if_false, fileWrite_opened vops opened' writable wrote]
        rw [if_pos (by simpa using served), if_neg (by omega)]
        by_cases ends : ret ≠ 0 ∨ used = 0
        · obtain ⟨result, finished, counted, nothing⟩ := finish_returns (SysFile.setFile
            { state with space := later, disk } fd { file with pos := file.pos + used }) grown code
          rw [if_pos (by simpa using ends), finished]
          exact ⟨_, result, used, rfl, by omega, taken, rfl, rfl, counted, nothing⟩
        · have onward : word (base + used) = base + used := by
            have top := grants_bounds granted (by omega)
            have high := highest_lt state.space
            exact Nat.mod_eq_of_lt (by omega)
          rw [if_neg (by simpa using ends), onward]
          obtain ⟨moved, going⟩ : ret = 0 ∧ used ≠ 0 := by simpa using ends
          obtain ⟨after, result, n, again, less, rest⟩ : ∃ after result n, writeLoop vops fd turns
              (SysFile.setFile { state with space := later, disk } fd { file with pos := file.pos + used })
              copy (base + used) (len - used) (copied + used) = some (after, result) ∧ n ≤ len - used ∧
              WroteMore vops fd { file with pos := file.pos + used } (base + used) (copied + used) n
                (SysFile.setFile { state with space := later, disk } fd { file with pos := file.pos + used })
                after result :=
            ih checked.sound (Opened.setFile (show Opened { state with space := later, disk } fd file from opened))
              writable (spans_checked grown checked) (by omega) (by omega)
          refine ⟨after, result, used + n, again, by omega, ?_, ?_, rest.user, ?_, ?_⟩
          · have writes := Writes.call wrote rest.writes
            rwa [same rfl, segment_take short, show (SysFile.setFile { state with space := later, disk } fd
              { file with pos := file.pos + used }).user = state.user from rfl, segment_append] at writes
          · rw [rest.position]
            simp [SysFile.setFile, add_assoc]
          · rw [← Nat.add_assoc]
            exact rest.counted
          · rw [← Nat.add_assoc]
            exact rest.nothing

theorem chunk_eq (len : Nat) : (if len < iobufSize then len else iobufSize) = min len iobufSize := by
  split_ifs <;> omega

/-- Without a branch for the descriptor a turn of the loop changes nothing that the next one reads. -/
theorem writeLoop_stuck (unserved : ¬(fd = 1 ∨ fd = 2)) (turns : Nat) (sound : Sound state.space)
    (nonempty : len ≠ 0) (small : len < 2 ^ 64) (granted : Grants state.space base (min len iobufSize) false) :
    writeLoop vops fd turns state buffer base len copied = none := by
  induction turns generalizing state buffer with
  | zero => rfl
  | succ turns ih =>
    obtain ⟨later, copy, ok, ran, checked, grants, -⟩ :=
      copyFromUser_returns base state.user buffer sound (by omega : min len iobufSize < 2 ^ 64)
    have done : ok = true := grants.mpr granted
    subst done
    rw [writeLoop, if_neg nonempty, chunk_eq]
    simp only [ran, Option.bind_eq_bind, Option.bind_some, Bool.not_true, Bool.false_eq_true, if_false]
    rw [if_neg (by simpa using unserved)]
    exact ih checked.sound (checked.grants.mpr granted)

/-- `sysfile_write` on an open and writable descriptor ends, and then has written the
bytes it counts, exactly where its loop has a branch for the number of the
descriptor or is not gone into with a readable buffer. -/
theorem sysfile_write_ends_iff (lawful : LawfulWrites vops) (sound : Sound state.space)
    (opened : Opened state fd file) (writable : file.writable = true) (small : len < 2 ^ 64) :
    (∃ turns after result n, sysfileWrite vops turns room buffer state fd base len = some (after, result) ∧
      n ≤ len ∧ WroteMore vops fd file base 0 n state after result) ↔
    fd = 1 ∨ fd = 2 ∨ len = 0 ∨ room = false ∨ ¬Grants state.space base (min len iobufSize) false := by
  have tested : fileTestfd state fd false true = true := by
    unfold Opened at opened
    simp [fileTestfd, opened, writable]
  constructor
  · rintro ⟨turns, after, result, n, ran, -⟩
    by_contra other
    simp only [not_or, not_not, Bool.not_eq_false] at other
    obtain ⟨not1, not2, nonempty, room, granted⟩ := other
    rw [sysfileWrite, if_neg nonempty, tested, room, writeLoop_stuck (by simp [not1, not2]) turns sound
      nonempty small granted] at ran
    cases ran
  · intro holds
    have unmoved : ∀ {result : Int}, result ≤ 0 → WroteMore vops fd file base 0 0 state state result :=
      fun code => ⟨Writes.done, opened.unchanged, rfl, fun moved => absurd rfl moved, fun _ => code⟩
    by_cases empty : len = 0
    · exact ⟨0, state, 0, 0, if_pos empty, Nat.zero_le _, unmoved le_rfl⟩
    · cases room with
      | false =>
        exact ⟨0, state, -eNoMem, 0, by simp [sysfileWrite, empty, tested], Nat.zero_le _, unmoved (by decide)⟩
      | true =>
        have enters : ∀ turns, sysfileWrite vops turns true buffer state fd base len =
            writeLoop vops fd turns state buffer base len 0 := by
          intro turns
          simp [sysfileWrite, empty, tested]
        by_cases served : fd = 1 ∨ fd = 2
        · obtain ⟨after, result, n, ran, rest⟩ := writeLoop_returns lawful served (len + 1) sound opened
            writable (Or.inl rfl) small (Nat.lt_succ_self len)
          exact ⟨len + 1, after, result, n, (enters _).trans ran, rest⟩
        · obtain ⟨later, copy, ok, ran, checked, grants, -⟩ :=
            copyFromUser_returns base state.user buffer sound (by omega : min len iobufSize < 2 ^ 64)
          have refused : ok = false := by
            by_contra accepted
            have granted := grants.mp (by simpa using accepted)
            simp_all
          subst refused
          refine ⟨1, { state with space := later }, -eInval, 0, ?_, Nat.zero_le _,
            Writes.done, opened.unchanged, rfl, fun moved => absurd rfl moved, fun _ => by decide⟩
          rw [enters, writeLoop, if_neg empty, chunk_eq]
          simp [ran, finish]

/-- Devices that take all they are given and have nothing to read. -/
def sink : Vops Unit := ⟨fun _ _ _ disk => (disk, 0, []), fun _ _ data disk => (disk, 0, data.length)⟩

/-- A process with one page of data and the files 1 and 3 open for writing. -/
def writer : State Unit where
  space := some ⟨[⟨0x800000, 0x801000, ⟨true, true, false, false⟩⟩], none⟩
  user _ := 0
  fdArray fd := if fd = 1 ∨ fd = 3 then some ⟨0, 0, false, true⟩ else none
  disk := ()

theorem writer_sound : Sound writer.space := by
  rintro mm ⟨⟩
  refine ⟨?_, ?_, ?_, by simp⟩
  all_goals simp [Paging.pgsize]

theorem writer_grants : Grants writer.space 0x800000 1 false := by
  refine ⟨by decide, by decide, by decide, fun byte low high => ?_⟩
  exact ⟨_, List.mem_singleton.mpr rfl, holds_iff.mpr ⟨low, by simp only; omega⟩, rfl, by simp⟩

theorem sink_lawful : LawfulWrites sink := by
  refine ⟨?_, ?_⟩ <;> simp [sink]

/-- A write to the console ends. -/
theorem sysfile_write_ends_console :
    ∃ turns after result n, sysfileWrite sink turns true (fun _ => 0) writer 1 0x800000 1 = some (after, result) ∧
      n ≤ 1 ∧ WroteMore sink 1 ⟨0, 0, false, true⟩ 0x800000 0 n writer after result :=
  (sysfile_write_ends_iff sink_lawful writer_sound
    (by simp [Opened, fd2file, testfd, filesStructNentry, writer]) rfl (by decide)).mpr (Or.inl rfl)

/-- A write of one byte to the file 3 does not. -/
theorem file_write_hangs :
    ¬∃ turns after result n, sysfileWrite sink turns true (fun _ => 0) writer 3 0x800000 1 = some (after, result) ∧
      n ≤ 1 ∧ WroteMore sink 3 ⟨0, 0, false, true⟩ 0x800000 0 n writer after result := by
  rintro ⟨turns, after, result, n, ran, -⟩
  have stuck : writeLoop sink 3 turns writer (fun _ => 0) 0x800000 1 0 = none :=
    writeLoop_stuck (by decide) turns writer_sound (by decide) (by decide) writer_grants
  have entered : sysfileWrite sink turns true (fun _ => 0) writer 3 0x800000 1 =
      writeLoop sink 3 turns writer (fun _ => 0) 0x800000 1 0 := by
    rw [sysfileWrite, if_neg (by decide), if_neg (by decide), if_neg (by decide)]
  rw [entered, stuck] at ran
  cases ran

end Ucore.SysFileProofs
