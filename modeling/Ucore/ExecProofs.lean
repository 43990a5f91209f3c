import Ucore.Ensures
import Ucore.Exec
import Ucore.UserMemProofs

/-! The arguments of a program reach its stack as they were in the caller. The
buffers between are a ledger: what is live is what was live before and the
buffers in hand, so that giving those back once ends where the call began. -/
namespace Ucore.ExecProofs
open Call UserMem Exec UserMemProofs
open Paging (pgsize usertop eInval eNoMem)

variable {state origin : State} {bytes : Nat → Nat} {args : Nat → Nat} {kargv : List Nat} {buffer filled : Nat}

/-! ## The ledger -/

/-- The buffer holds a string of `n` characters. -/
structure HasLen (buf : Nat → Nat) (n : Nat) : Prop where
  short : n ≤ execMaxArgLen
  nul : buf n = 0
  characters : ∀ j < n, buf j ≠ 0

/-- The buffer holds the string that stands at `src` in the caller. -/
def HoldsString (bytes : Nat → Nat) (src : Nat) (buf : Nat → Nat) : Prop :=
  ∃ n, HasLen buf n ∧ ∀ j ≤ n, buf j = bytes (src + j)

/-- The first `filled` buffers in hand hold the first arguments; besides the
buffers in hand nothing is live that was not live at the start. -/
structure Held (origin : State) (bytes args : Nat → Nat) (kargv : List Nat) (filled : Nat)
    (state : State) : Prop where
  space : Checked origin.space state.space
  fresh : ∀ b, state.next ≤ b → state.live b = false
  kept : ∀ b, b ∉ kargv → state.live b = origin.live b
  own : ∀ b ∈ kargv, state.live b = true ∧ origin.live b = false
  distinct : kargv.Nodup
  strings : ∀ i (held : i < kargv.length), i < filled → HoldsString bytes (args i) (state.buffers kargv[i])

theorem Held.withUser (held : Held origin bytes args kargv filled state) (user : Nat → Nat) :
    Held origin bytes args kargv filled { state with user } :=
  ⟨held.space, held.fresh, held.kept, held.own, held.distinct, held.strings⟩

theorem kfree_settles {halt : Prop} (live : state.live buffer = true) :
    Settles (kfree buffer)
      (fun _ after => after = { state with live := Function.update state.live buffer false })
      (fun _ _ => False) halt state := by
  refine .bind (.gets (.bind (.assert (fun _ => .modify rfl) fun dead => ?_)))
  rw [live] at dead
  cases dead

theorem putKargv_settles {halt : Prop} (distinct : kargv.Nodup) (live : ∀ b ∈ kargv, state.live b = true) :
    Settles (putKargv kargv)
      (fun _ after => after = { state with live := fun b => if b ∈ kargv then false else state.live b })
      (fun _ _ => False) halt state := by
  induction kargv with
  | nil => exact .pure (by simp)
  | cons buffer kargv ih =>
    obtain ⟨others, distinct⟩ := List.nodup_cons.mp distinct
    refine .bind ((ih distinct fun b member => live b (List.mem_cons_of_mem _ member)).weaken ?_
      fun _ _ never => never.elim)
    rintro _ after rfl
    refine (kfree_settles (by simpa [others] using live buffer List.mem_cons_self)).weaken ?_
      fun _ _ never => never
    rintro _ after rfl
    congr 1
    funext b
    by_cases same : b = buffer
    · subst same
      simp
    · simp [same]

theorem Held.release {halt : Prop} (held : Held origin bytes args kargv filled state) :
    Settles (putKargv kargv) (fun _ after => after.live = origin.live ∧ after.user = state.user)
      (fun _ _ => False) halt state := by
  refine (putKargv_settles held.distinct fun b member => (held.own b member).1).weaken ?_
    fun _ _ never => never
  rintro _ after rfl
  refine ⟨funext fun b => ?_, rfl⟩
  by_cases member : b ∈ kargv
  · simp [member, (held.own b member).2]
  · simp [member, held.kept b member]

/-! ## Copying in -/

theorem kmalloc_settles {halt : Prop} (held : Held origin bytes args kargv filled state)
    (all : filled = kargv.length) :
    Settles kmalloc (fun got after => match got with
      | none => Held origin bytes args kargv filled after
      | some buffer => Held origin bytes args (kargv ++ [buffer]) filled after)
      (fun _ _ => False) halt state := by
  refine .bind (.gets (.bind (.modify ?_)))
  by_cases room : state.room 0
  · rw [if_pos room]
    refine .bind (.modify (.pure ?_))
    have free := held.fresh state.next le_rfl
    have new : state.next ∉ kargv := by
      intro member
      have live := (held.own _ member).1
      rw [free] at live
      cases live
    refine ⟨held.space, fun b above => ?_, fun b other => ?_, fun b member => ?_, ?_, fun i below small => ?_⟩
    · have apart : b ≠ state.next := by
        simp only at above
        omega
      simpa [apart] using held.fresh b (by simp only at above; omega)
    · simp only [List.mem_append, List.mem_singleton, not_or] at other
      simpa [other.2] using held.kept b other.1
    · rcases List.mem_append.mp member with inHand | last
      · have apart : b ≠ state.next := fun same => new (same ▸ inHand)
        simpa [apart] using held.own b inHand
      · cases List.mem_singleton.mp last
        exact ⟨by simp, (held.kept _ new).symm.trans free⟩
    · exact List.nodup_append.mpr ⟨held.distinct, by simp, fun a inHand b last => by
        cases List.mem_singleton.mp last
        exact fun same => new (same ▸ inHand)⟩
    · have old : i < kargv.length := by omega
      simpa [List.getElem_append_left old] using held.strings i old small
  · rw [if_neg room]
    exact .pure ⟨held.space, held.fresh, held.kept, held.own, held.distinct, held.strings⟩

/-- Without the last buffer. -/
theorem Held.drop (held : Held origin bytes args (kargv ++ [buffer]) filled state) :
    Held origin bytes args kargv filled
      { state with live := Function.update state.live buffer false } := by
  obtain ⟨distinct, -, apart⟩ := List.nodup_append.mp held.distinct
  have outside : buffer ∉ kargv := fun member => apart buffer member buffer (by simp) rfl
  refine ⟨held.space, fun b above => ?_, fun b other => ?_, fun b member => ?_, distinct,
    fun i below small => ?_⟩
  · by_cases same : b = buffer
    · simp [same]
    · simpa [same] using held.fresh b above
  · by_cases same : b = buffer
    · subst same
      simpa using (held.own b (by simp)).2.symm
    · simpa [same] using held.kept b (by simp [other, same])
  · have same : b ≠ buffer := fun same => outside (same ▸ member)
    simpa [same] using held.own b (by simp [member])
  · have string := held.strings i (by simp; omega) small
    rwa [List.getElem_append_left below] at string

theorem copyIn_settles {halt : Prop} {src : Nat}
    (held : Held origin bytes args (kargv ++ [buffer]) filled state) (all : filled = kargv.length)
    (source : src = args filled) (small : src < 2 ^ 64) :
    Settles (copyIn bytes buffer src (execMaxArgLen + 1)) (fun ok after =>
      Held origin bytes args (kargv ++ [buffer]) (if ok then filled + 1 else filled) after)
      (fun _ _ => False) halt state := by
  obtain ⟨later, copied, ok, ran, checked, result⟩ := copyString_returns held.space.sound bytes
    (state.buffers buffer) (show 1 ≤ execMaxArgLen + 1 by omega) small
  refine .of_run (show Returns _ state ok
    { state with space := later, buffers := Function.update state.buffers buffer copied } by
      simp [Returns, copyIn, ran]) ?_
  refine ⟨held.space.trans checked, held.fresh, held.kept, held.own, held.distinct,
    fun i below filledTo => ?_⟩
  obtain ⟨-, -, apart⟩ := List.nodup_append.mp held.distinct
  by_cases old : i < kargv.length
  · have other : kargv[i] ≠ buffer := apart _ (List.getElem_mem old) buffer (by simp)
    have string := held.strings i below (by omega)
    rw [List.getElem_append_left old] at string ⊢
    simpa [other] using string
  · have last : i = kargv.length := by
      rw [List.length_append, List.length_singleton] at below
      omega
    have done : ok = true := by
      by_contra failed
      rw [if_neg failed] at filledTo
      omega
    obtain ⟨n, short, string, same, -⟩ := result.string done
    subst last
    rw [List.getElem_concat_length rfl, ← all, ← source]
    simp only [Nat.zero_add, Function.update_self] at same ⊢
    refine ⟨n, ⟨by omega, (same n le_rfl).trans string.nul, fun j less => ?_⟩, same⟩
    rw [same j less.le]
    exact string.characters j less

theorem loadLong_lt (bytes : Nat → Nat) (addr : Nat) : loadLong bytes addr < 2 ^ 64 :=
  Nat.mod_lt _ (by decide)

theorem loadPointer_settles {halt : Prop} {start len addr : Nat} (checked : Checked origin.space state.space)
    (reads : ∀ i < len, readable origin.space (start + i)) (low : start ≤ addr)
    (high : addr + sizeofLong ≤ start + len) :
    Settles (loadPointer bytes start len addr)
      (fun src after => src = loadLong bytes addr ∧ after = state) (fun _ _ => False) halt state := by
  refine .bind (.gets (.bind (.assert (fun _ => .pure ⟨rfl, rfl⟩) fun failing => ?_)))
  have passes : ((List.range sizeofLong).all fun i =>
      (loadByte state.space bytes start len (addr + i)).isSome) = true := by
    refine List.all_eq_true.mpr fun i member => ?_
    have below := List.mem_range.mp member
    have read := reads (addr + i - start) (by omega)
    rw [Nat.add_sub_cancel' (by omega), ← checked.readable] at read
    simp only [loadByte, read, Bool.and_true]
    rw [if_pos (by simp; omega)]
    rfl
  rw [passes] at failing
  cases failing

theorem copyKargvLoop_settles {halt : Prop} {argc argv : Nat} (more : Nat)
    (pointers : args = fun i => loadLong bytes (argv + sizeofLong * i))
    (reads : ∀ i < sizeofLong * argc, readable origin.space (argv + i))
    (held : Held origin bytes args kargv kargv.length state) (count : kargv.length + more = argc) :
    Settles (copyKargvLoop bytes argc argv more kargv)
      (fun kargv after => kargv.length = argc ∧ Held origin bytes args kargv argc after)
      (fun _ after => after.live = origin.live) halt state := by
  induction more generalizing kargv state with
  | zero =>
    have full : kargv.length = argc := by omega
    exact .pure ⟨full, full ▸ held⟩
  | succ more ih =>
    refine .bind ((kmalloc_settles held rfl).weaken ?_ fun _ _ never => never.elim)
    rintro (_ | buffer) given held
    · exact .bind (held.release.weaken (fun _ _ released => .fail released.1) fun _ _ never => never.elim)
    · refine .bind ((loadPointer_settles held.space reads (by omega) (by unfold sizeofLong; omega)).weaken ?_
        fun _ _ never => never.elim)
      rintro src _ ⟨source, rfl⟩
      have pointer : src = args kargv.length := by rw [source, pointers]
      refine .bind ((copyIn_settles held rfl pointer (source ▸ loadLong_lt _ _)).weaken ?_
        fun _ _ never => never.elim)
      rintro (_ | _) copied held
      · have live : copied.live buffer = true := (held.own buffer (by simp)).1
        refine .bind ((kfree_settles live).weaken ?_ fun _ _ never => never.elim)
        rintro _ _ rfl
        exact .bind (held.drop.release.weaken (fun _ _ released => .fail released.1)
          fun _ _ never => never.elim)
      · exact ih (by simpa using held) (by simp; omega)

theorem checkUser_settles {halt : Prop} {addr len : Nat} (sound : Sound state.space) (small : len < 2 ^ 64) :
    Settles (checkUser addr len false) (fun ok after =>
      (∃ later, Checked state.space later ∧ after = { state with space := later }) ∧
        (ok → ∀ i < len, readable state.space (addr + i))) (fun _ _ => False) halt state := by
  obtain ⟨later, ok, ran, checked, reads⟩ := check_range sound small
  exact .of_run (show Returns _ state ok { state with space := later } by
    simp [Returns, checkUser, ran]) ⟨⟨later, checked, rfl⟩, reads⟩

/-- The caller's memory before any argument is copied. -/
theorem copyKargv_settles {halt : Prop} {argc argv : Nat} (held : Held origin bytes args [] 0 state)
    (pointers : args = fun i => loadLong bytes (argv + sizeofLong * i)) (few : argc ≤ 32) :
    Settles (copyKargv bytes argc argv)
      (fun kargv after => kargv.length = argc ∧ Held origin bytes args kargv argc after ∧
        ∀ i < sizeofLong * argc, readable origin.space (argv + i))
      (fun _ after => after.live = origin.live) halt state := by
  have small : sizeofLong * argc < 2 ^ 64 := by unfold sizeofLong; omega
  refine .bind ((checkUser_settles held.space.sound small).weaken ?_ fun _ _ never => never.elim)
  rintro (_ | _) _ ⟨⟨later, checked, rfl⟩, reads⟩
  · exact .fail (funext fun b => held.kept b (by simp))
  · have reads : ∀ i < sizeofLong * argc, readable origin.space (argv + i) := fun i below => by
      rw [← held.space.readable]
      exact reads rfl i below
    have started : Held origin bytes args [] 0 { state with space := later } :=
      ⟨held.space.trans checked, held.fresh, held.kept, held.own, held.distinct, held.strings⟩
    refine (copyKargvLoop_settles argc pointers reads started (by simp)).weaken ?_ fun _ _ failed => failed
    exact fun _ _ all => ⟨all.1, all.2, reads⟩

/-! ## Words in memory -/

/-- What `storeLong` leaves behind. -/
def withLong (user : Nat → Nat) (addr value : Nat) : Nat → Nat := fun other =>
  if addr ≤ other && other < addr + sizeofLong then value / 256 ^ (other - addr) % 256 else user other

theorem withLong_other {user : Nat → Nat} {addr value other : Nat}
    (outside : other < addr ∨ addr + sizeofLong ≤ other) : withLong user addr value other = user other := by
  have apart : ¬(addr ≤ other ∧ other < addr + sizeofLong) := by omega
  simp [withLong, apart]

theorem loadLong_congr {user other : Nat → Nat} {addr : Nat}
    (same : ∀ i < sizeofLong, user (addr + i) = other (addr + i)) :
    loadLong user addr = loadLong other addr := by
  unfold loadLong
  rw [List.map_congr_left fun i member => same i (List.mem_range.mp member)]

/-- A word reads as it was stored. -/
theorem loadLong_withLong (user : Nat → Nat) (addr : Nat) {value : Nat} (small : value < 2 ^ 64) :
    loadLong (withLong user addr value) addr = value := by
  have digits : (List.range sizeofLong).map (fun i => withLong user addr value (addr + i)) =
      (List.range sizeofLong).map fun i => value / 256 ^ i % 256 := by
    refine List.map_congr_left fun i member => ?_
    have below := List.mem_range.mp member
    simp [withLong, below]
  unfold loadLong
  rw [digits]
  simp only [sizeofLong, List.range_succ, List.range_zero, List.nil_append, List.map_cons,
    List.map_nil, List.cons_append, Nat.ofDigits_cons, Nat.ofDigits_nil, word]
  omega

/-! ## Placing the strings -/

/-- A byte of the stack cannot be had. -/
def Unserved (served : Nat → Bool) : Prop := ∃ addr, onStack addr = true ∧ served addr = false

variable {served : Nat → Bool} {addr dst n : Nat}

theorem onStack_iff : onStack addr ↔ ustacktop - ustacksize ≤ addr ∧ addr < ustacktop := by
  simp [onStack]

theorem storeByte_settles {byte : Nat} (on : onStack addr = true) :
    Settles (storeByte served addr byte)
      (fun _ after => after = { state with user := Function.update state.user addr byte })
      (fun _ _ => False) (Unserved served) state := by
  refine .bind (.assert (fun _ => .modify rfl) fun failing => ?_)
  exact ⟨addr, on, by simpa [on] using failing⟩

theorem storeLong_settles {value : Nat} (on : ∀ i < sizeofLong, onStack (addr + i) = true) :
    Settles (storeLong served addr value)
      (fun _ after => after = { state with user := withLong state.user addr value })
      (fun _ _ => False) (Unserved served) state := by
  refine .bind (.assert (fun _ => .modify rfl) fun failing => ?_)
  obtain ⟨i, member, failed⟩ := List.all_eq_false.mp failing
  have here := on i (List.mem_range.mp member)
  exact ⟨addr + i, here, by simpa [here] using failed⟩

/-- The bytes of a buffer up to `n`, from its byte `pos` on. -/
def withText (user buf : Nat → Nat) (dst pos n : Nat) : Nat → Nat := fun other =>
  if dst + pos ≤ other ∧ other ≤ dst + n then buf (other - dst) else user other

theorem strcpy_settles {pos : Nat} (more : Nat) (text : HasLen (state.buffers buffer) n) (within : pos ≤ n)
    (enough : n - pos < more) (on : ∀ j ≤ n, onStack (dst + j) = true) :
    Settles (strcpy served dst buffer more pos)
      (fun _ after => after = { state with user := withText state.user (state.buffers buffer) dst pos n })
      (fun _ _ => False) (Unserved served) state := by
  induction more generalizing state pos with
  | zero => omega
  | succ more ih =>
    refine .bind (.gets (.bind ((storeByte_settles (on pos within)).weaken ?_ fun _ _ never => never.elim)))
    rintro _ _ rfl
    by_cases last : pos = n
    · subst last
      rw [if_pos text.nul]
      refine .pure ?_
      congr 1
      funext other
      by_cases here : other = dst + pos
      · subst here
        simp [withText]
      · have outside : ¬(dst + pos ≤ other ∧ other ≤ dst + pos) := by omega
        simp [withText, here, outside]
    · rw [if_neg (text.characters pos (by omega))]
      refine .weaken (ih text (by omega) (by omega)) ?_ fun _ _ never => never
      rintro _ _ rfl
      congr 1
      funext other
      by_cases here : other = dst + pos
      · subst here
        simp [withText, within]
      · have same : (dst + (pos + 1) ≤ other ∧ other ≤ dst + n) ↔ (dst + pos ≤ other ∧ other ≤ dst + n) := by
          omega
        simp [withText, here, same]

theorem argLen_settles {halt : Prop} (text : HasLen (state.buffers buffer) n) :
    Settles (argLen buffer) (fun len after => len = n ∧ after = state) (fun _ _ => False) halt state := by
  have short := text.short
  have fetched : ∀ i < execMaxArgLen + 1,
      bufferByte (state.buffers buffer) (0 + i) = some (state.buffers buffer (0 + i)) := by
    intro i below
    rw [Nat.zero_add, bufferByte, if_pos below]
  obtain ⟨len, -, ran, others, nul⟩ := strnlen_returns fetched (by decide)
  simp only [Nat.zero_add] at others nul
  have same : len = n := by
    rcases Nat.lt_trichotomy len n with less | same | more
    · exact absurd (nul (by omega)) (text.characters len less)
    · exact same
    · exact absurd text.nul (others n more)
  exact .of_run (show Returns _ state len state by simp [Returns, argLen, ran]) ⟨same, rfl⟩

/-- The room that the strings of these buffers take. -/
def extent (len : Nat → Nat) (kargv : List Nat) : Nat := (kargv.map fun b => len b + 1).sum

variable {len : Nat → Nat} {size : Nat}

theorem sizeLoop_settles {halt : Prop} (texts : ∀ b ∈ kargv, HasLen (state.buffers b) (len b))
    (small : size + extent len kargv < 2 ^ 32) :
    Settles (sizeLoop kargv size) (fun total after => total = size + extent len kargv ∧ after = state)
      (fun _ _ => False) halt state := by
  induction kargv generalizing size with
  | nil => exact .pure ⟨by simp [extent], rfl⟩
  | cons buffer kargv ih =>
    refine .bind ((argLen_settles (texts buffer List.mem_cons_self)).weaken ?_ fun _ _ never => never.elim)
    rintro _ _ ⟨rfl, rfl⟩
    have split : extent len (buffer :: kargv) = len buffer + 1 + extent len kargv := by simp [extent]
    rw [Nat.mod_eq_of_lt (by omega)]
    refine (ih (fun b member => texts b (List.mem_cons_of_mem _ member)) (by omega)).weaken ?_
      fun _ _ never => never
    rintro _ _ ⟨rfl, rfl⟩
    exact ⟨by omega, rfl⟩

/-- The strings stand from `base + size` on and the pointers to them from number `i` on. -/
def Placed (user : Nat → Nat) (buffers : Nat → Nat → Nat) (len : Nat → Nat) (base uargv : Nat)
    (kargv : List Nat) (i size : Nat) : Prop :=
  ∀ k (_ : k < kargv.length),
    loadLong user (uargv + sizeofLong * (i + k)) = base + (size + extent len (kargv.take k)) ∧
    ∀ j ≤ len kargv[k], user (base + (size + extent len (kargv.take k)) + j) = buffers kargv[k] j

theorem placeLoop_settles {base uargv i : Nat} (texts : ∀ b ∈ kargv, HasLen (state.buffers b) (len b))
    (low : ustacktop - ustacksize ≤ uargv) (below : uargv + sizeofLong * (i + kargv.length) ≤ base)
    (high : base + (size + extent len kargv) ≤ ustacktop) :
    Settles (placeLoop served base uargv kargv i size) (fun _ after =>
      ∃ user, after = { state with user } ∧ Placed user state.buffers len base uargv kargv i size ∧
        ∀ other, (other < uargv + sizeofLong * i ∨ uargv + sizeofLong * (i + kargv.length) ≤ other) →
          (other < base + size ∨ base + (size + extent len kargv) ≤ other) → user other = state.user other)
      (fun _ _ => False) (Unserved served) state := by
  induction kargv generalizing state i size with
  | nil => exact .pure ⟨state.user, rfl, fun k never => absurd never (by simp), fun _ _ _ => rfl⟩
  | cons buffer kargv ih =>
    have text := texts buffer List.mem_cons_self
    have split : extent len (buffer :: kargv) = len buffer + 1 + extent len kargv := by simp [extent]
    rw [List.length_cons] at below
    unfold sizeofLong at below
    refine .bind ((strcpy_settles _ text (Nat.zero_le _) (by have := text.short; omega) fun j within =>
      onStack_iff.mpr ⟨by omega, by omega⟩).weaken ?_ fun _ _ never => never.elim)
    rintro _ _ rfl
    refine .bind (.weaken (storeLong_settles fun j within => onStack_iff.mpr
      ⟨by unfold sizeofLong at *; omega, by unfold sizeofLong at *; omega⟩) ?_ fun _ _ never => never.elim)
    rintro _ _ rfl
    refine .bind (.weaken (argLen_settles text) ?_ fun _ _ never => never.elim)
    rintro _ _ ⟨rfl, rfl⟩
    have wraps : ustacktop < 2 ^ 32 := by decide
    rw [Nat.mod_eq_of_lt (by omega)]
    refine .weaken (ih (fun b member => texts b (List.mem_cons_of_mem _ member)) (by unfold sizeofLong; omega)
      (by omega)) ?_ fun _ _ never => never
    rintro _ _ ⟨user, rfl, placed, frame⟩
    unfold sizeofLong at frame
    dsimp only at placed frame
    have written : ∀ other, uargv + 8 * (i + 1 + kargv.length) ≤ other → other < base + (size + len buffer + 1) →
        user other = withText state.user (state.buffers buffer) (base + size) 0 (len buffer) other := by
      intro other above inside
      rw [frame other (by omega) (by omega), withLong_other (by unfold sizeofLong; omega)]
    refine ⟨user, rfl, fun k inHand => ?_, fun other outside apart => ?_⟩
    · cases k with
      | zero =>
        simp only [List.take_zero, show extent len [] = 0 from rfl, Nat.add_zero, List.getElem_cons_zero]
        constructor
        · have stored : ∀ j < sizeofLong, user (uargv + sizeofLong * i + j) =
              withLong (withText state.user (state.buffers buffer) (base + size) 0 (len buffer))
                (uargv + sizeofLong * i) (base + size) (uargv + sizeofLong * i + j) := by
            intro j within
            unfold sizeofLong at within ⊢
            exact frame _ (by omega) (by omega)
          rw [loadLong_congr stored, loadLong_withLong _ _ (by omega)]
        · intro j within
          rw [written _ (by omega) (by omega)]
          simp [withText, within]
      | succ k =>
        have later := placed k (by simpa using inHand)
        have room : size + extent len ((buffer :: kargv).take (k + 1)) =
            size + len buffer + 1 + extent len (kargv.take k) := by
          simp only [List.take_succ_cons, extent, List.map_cons, List.sum_cons]
          omega
        rw [room, show i + (k + 1) = i + 1 + k by omega]
        simpa using later
    · rw [List.length_cons] at outside
      unfold sizeofLong at outside
      have kept : ¬(base + size + 0 ≤ other ∧ other ≤ base + size + len buffer) := by omega
      rw [frame other (by omega) (by omega), withLong_other (by unfold sizeofLong; omega), withText, if_neg kept]

theorem extent_le (short : ∀ b ∈ kargv, len b ≤ execMaxArgLen) :
    extent len kargv ≤ (execMaxArgLen + 1) * kargv.length := by
  induction kargv with
  | nil => simp [extent]
  | cons buffer kargv ih =>
    have first := short buffer List.mem_cons_self
    have rest := ih fun b member => short b (List.mem_cons_of_mem _ member)
    simp only [extent, List.map_cons, List.sum_cons, List.length_cons, Nat.mul_add] at rest ⊢
    omega

theorem extent_take_succ (len : Nat → Nat) {k : Nat} (inHand : k < kargv.length) :
    extent len (kargv.take (k + 1)) = extent len (kargv.take k) + (len kargv[k] + 1) := by
  rw [List.take_add_one, List.getElem?_eq_getElem inHand]
  simp only [extent, List.map_append, List.sum_append, Option.toList_some, List.map_cons, List.map_nil,
    List.sum_singleton]

theorem extent_take_le (len : Nat → Nat) (kargv : List Nat) {i k : Nat} (order : i ≤ k) :
    extent len (kargv.take i) ≤ extent len (kargv.take k) := by
  have sub : (kargv.take i).Sublist (kargv.take k) := (List.take_prefix_take_left order).sublist
  exact (sub.map _).sum_le_sum (by simp)

/-- The layout of the new stack: the count, the pointers, and the strings in order. -/
structure Laid (user : Nat → Nat) (buffers : Nat → Nat → Nat) (len : Nat → Nat) (kargv : List Nat)
    (sp : Nat) : Prop where
  aligned : sp % sizeofLong = 0
  low : ustacktop - ustacksize ≤ sp
  count : loadLong user sp = kargv.length
  strings : ∀ k (_ : k < kargv.length),
    let pointer := fun i => loadLong user (sp + sizeofLong + sizeofLong * i)
    sp + sizeofLong + sizeofLong * kargv.length ≤ pointer k ∧
    pointer k + len kargv[k] < ustacktop ∧
    (∀ j ≤ len kargv[k], user (pointer k + j) = buffers kargv[k] j) ∧
    ∀ i (_ : i < k), pointer i + len kargv[i] < pointer k

theorem setupArguments_settles (texts : ∀ b ∈ kargv, HasLen (state.buffers b) (len b))
    (few : kargv.length ≤ 32) :
    Settles (setupArguments served kargv)
      (fun sp after => ∃ user, after = { state with user } ∧ Laid user state.buffers len kargv sp)
      (fun _ _ => False) (Unserved served) state := by
  have most := extent_le fun b member => (texts b member).short
  unfold execMaxArgLen at most
  refine .bind (.weaken (sizeLoop_settles texts (by omega)) ?_ fun _ _ never => never.elim)
  rintro _ _ ⟨rfl, rfl⟩
  dsimp only
  rw [Nat.zero_add]
  obtain ⟨base, baseEq⟩ : ∃ base, base = ustacktop - (extent len kargv / sizeofLong + 1) * sizeofLong := ⟨_, rfl⟩
  obtain ⟨sp, spEq⟩ : ∃ sp, sp = base - kargv.length * sizeofLong - sizeofLong := ⟨_, rfl⟩
  rw [← baseEq, ← spEq]
  have bounds : base % 8 = 0 ∧ base + extent len kargv < ustacktop ∧ ustacktop - ustacksize ≤ sp ∧
      sp + 8 + kargv.length * 8 = base ∧ base - kargv.length * 8 = sp + 8 ∧ base < 2 ^ 32 := by
    unfold sizeofLong ustacktop ustacksize usertop pgsize at *
    omega
  obtain ⟨aligned, top, low, array, pointers, small⟩ := bounds
  unfold sizeofLong
  rw [pointers]
  refine .bind (.weaken (placeLoop_settles texts (by omega) (by unfold sizeofLong; omega) (by omega)) ?_
    fun _ _ never => never.elim)
  rintro _ _ ⟨user, rfl, placed, -⟩
  refine .bind (.weaken (storeLong_settles fun j within => onStack_iff.mpr
    ⟨by unfold sizeofLong at *; omega, by unfold sizeofLong at *; omega⟩) ?_ fun _ _ never => never.elim)
  rintro _ _ rfl
  refine .pure ⟨_, rfl, by unfold sizeofLong; omega, low, loadLong_withLong _ _ (by omega), fun k inHand => ?_⟩
  have pointer : ∀ i (_ : i < kargv.length), loadLong (withLong user sp kargv.length)
      (sp + sizeofLong + sizeofLong * i) = base + extent len (kargv.take i) := by
    intro i inHand
    have kept : loadLong (withLong user sp kargv.length) (sp + sizeofLong + sizeofLong * i) =
        loadLong user (sp + sizeofLong + sizeofLong * i) :=
      loadLong_congr fun j _ => withLong_other (by unfold sizeofLong; omega)
    have there := (placed i inHand).1
    rw [Nat.zero_add, Nat.zero_add] at there
    exact kept.trans there
  have within := extent_take_succ len inHand
  have total := extent_take_le len kargv (show k + 1 ≤ kargv.length from inHand)
  rw [List.take_length] at total
  dsimp only
  rw [pointer k inHand]
  refine ⟨by unfold sizeofLong; omega, by omega, fun j below => ?_, fun i order => ?_⟩
  · have there := (placed k inHand).2 j below
    rw [Nat.zero_add] at there
    rw [withLong_other (by unfold sizeofLong; omega)]
    exact there
  · have inHand : i < kargv.length := by omega
    have before := extent_take_succ len inHand
    have apart := extent_take_le len kargv (show i + 1 ≤ k from order)
    rw [pointer i inHand]
    omega

/-! ## The call -/

/-- The strings of the caller stand on the new stack, with the pointers to them
and their count: the count word, the pointers and the strings share no byte. -/
structure Marshalled (bytes : Nat → Nat) (argc argv : Nat) (user : Nat → Nat) (sp : Nat) : Prop where
  aligned : sp % sizeofLong = 0
  low : ustacktop - ustacksize ≤ sp
  count : loadLong user sp = argc
  strings : ∃ len : Nat → Nat, ∀ k < argc,
    let source := loadLong bytes (argv + sizeofLong * k)
    let pointer := fun i => loadLong user (sp + sizeofLong + sizeofLong * i)
    (bytes (source + len k) = 0 ∧ ∀ j < len k, bytes (source + j) ≠ 0) ∧
    (∀ j ≤ len k, user (pointer k + j) = bytes (source + j)) ∧
    sp + sizeofLong + sizeofLong * argc ≤ pointer k ∧ pointer k + len k < ustacktop ∧
    ∀ i < k, pointer i + len i < pointer k

theorem HasLen.unique {buf : Nat → Nat} {m : Nat} (first : HasLen buf n) (second : HasLen buf m) : n = m := by
  rcases Nat.lt_trichotomy n m with less | same | more
  · exact absurd first.nul (second.characters n less)
  · exact same
  · exact absurd second.nul (first.characters m more)

theorem Held.marshals {argc argv sp : Nat} {user : Nat → Nat}
    (held : Held origin bytes (fun i => loadLong bytes (argv + sizeofLong * i)) kargv argc state)
    (count : kargv.length = argc) (texts : ∀ b ∈ kargv, HasLen (state.buffers b) (len b))
    (laid : Laid user state.buffers len kargv sp) : Marshalled bytes argc argv user sp := by
  refine ⟨laid.aligned, laid.low, count ▸ laid.count, fun k => len (kargv.getD k 0), fun k within => ?_⟩
  have inHand : k < kargv.length := by omega
  obtain ⟨n, text, same⟩ := held.strings k inHand within
  cases text.unique (texts _ (List.getElem_mem inHand))
  obtain ⟨above, top, copied, order⟩ := laid.strings k inHand
  simp only [List.getD_eq_getElem?_getD, List.getElem?_eq_getElem inHand, Option.getD_some]
  refine ⟨⟨(same _ le_rfl).symm.trans text.nul, fun j below => ?_⟩, fun j below => ?_, count ▸ above, top,
    fun i before => ?_⟩
  · rw [← same j below.le]
    exact text.characters j below
  · rw [← same j below]
    exact copied j below
  · rw [List.getElem?_eq_getElem (by omega), Option.getD_some]
    exact order i before

theorem Held.texts (held : Held origin bytes args kargv kargv.length state) :
    ∃ len : Nat → Nat, ∀ b ∈ kargv, HasLen (state.buffers b) (len b) := by
  have each : ∀ b ∈ kargv, ∃ n, HasLen (state.buffers b) n := by
    intro b member
    obtain ⟨i, inHand, rfl⟩ := List.getElem_of_mem member
    obtain ⟨n, text, -⟩ := held.strings i inHand inHand
    exact ⟨n, text⟩
  choose! len texts using each
  exact ⟨len, texts⟩

theorem sound_checked {space : Option Mm} (sound : Sound space) : Checked space space := by
  cases space with
  | none => exact .kernel
  | some mm => exact .user ⟨sound mm rfl, rfl⟩

theorem copyName_settles {halt : Prop} {name : Nat} (sound : Sound state.space) (small : name < 2 ^ 64) :
    Settles (copyName bytes name)
      (fun _ after => ∃ later, Checked state.space later ∧ after = { state with space := later })
      (fun _ _ => False) halt state := by
  by_cases null : name = 0
  · exact .of_run (show Returns _ state true state by simp [Returns, copyName, null])
      ⟨state.space, sound_checked sound, rfl⟩
  · obtain ⟨later, copied, ok, ran, checked, -⟩ := copyString_returns sound bytes (fun _ => 0)
      (show 1 ≤ procNameLen + 1 by omega) small
    exact .of_run (show Returns _ state ok { state with space := later } by
        simp [Returns, copyName, null, ran])
      ⟨later, checked, rfl⟩

/-- However `exec` ends, every buffer it took is given back once. A program that
starts finds its arguments on the stack; only `load_icode` stops the system. -/
theorem exec_arguments {name argv : Nat} {argc : Int} {opened : Option Int} {loaded : Loaded}
    (sound : Sound state.space) (fresh : ∀ b, state.next ≤ b → state.live b = false)
    (small : name < 2 ^ 64) :
    Settles (doExecve bytes name argc argv opened loaded)
      (fun outcome after => after.live = state.live ∧
        ∀ sp, outcome = .runs sp → Marshalled bytes argc.toNat argv after.user sp)
      (fun _ _ => False)
      (loaded = .panics ∨ ∃ user served, loaded = .built user served ∧ Unserved served) state := by
  unfold doExecve
  by_cases inRange : (1 ≤ argc && argc ≤ execMaxArgNum) = true
  · rw [inRange, Bool.not_true, if_neg Bool.false_ne_true]
    simp only [Bool.and_eq_true, decide_eq_true_eq] at inRange
    unfold execMaxArgNum at inRange
    refine .bind ((copyName_settles sound small).weaken ?_ fun _ _ never => never)
    rintro (_ | _) _ ⟨space, checked, rfl⟩
    · exact .pure ⟨rfl, by simp⟩
    · have held : Held state bytes (fun i => loadLong bytes (argv + sizeofLong * i)) [] 0
          { state with space } :=
        ⟨checked, fresh, by simp, by simp, by simp, by simp⟩
      refine .bind (.attempt ((copyKargv_settles held rfl (by omega)).weaken ?_ ?_))
      · rintro kargv given ⟨count, held, reads⟩
        refine .bind ((loadPointer_settles held.space reads le_rfl (by unfold sizeofLong; omega)).weaken ?_
          fun _ _ never => never)
        rintro _ _ ⟨-, rfl⟩
        rcases opened with _ | ret
        · rcases loaded with ret | _ | ⟨user, served⟩
          · exact .bind (held.release.weaken (fun _ _ released => .pure ⟨released.1, by simp⟩)
              fun _ _ never => never)
          · exact .stop (Or.inl rfl)
          · refine .bind (.modify ?_)
            obtain ⟨len, texts⟩ := (count ▸ held : Held state bytes _ kargv kargv.length _).texts
            refine .bind (.weaken (.halts (setupArguments_settles texts (by omega)) fun unserved =>
              Or.inr ⟨user, served, rfl, unserved⟩) ?_ fun _ _ never => never)
            rintro sp _ ⟨stack, rfl, laid⟩
            refine .bind (.weaken (held.withUser stack).release ?_ fun _ _ never => never)
            rintro _ _ ⟨released, kept⟩
            refine .pure ⟨released, fun sp' runs => ?_⟩
            cases runs
            rw [kept]
            exact held.marshals count texts laid
        · exact .bind (held.release.weaken (fun _ _ released => .pure ⟨released.1, by simp⟩)
            fun _ _ never => never)
      · exact fun _ _ released => .pure ⟨released, by simp⟩
  · rw [Bool.not_eq_true] at inRange
    rw [inRange, Bool.not_false, if_pos rfl]
    exact .pure ⟨rfl, by simp⟩

/-- `cat` across the end of the code, and `-n`. -/
def callerTexts (addr : Nat) : Nat :=
  if addr = 0x800ffe then 99 else if addr = 0x800fff then 97 else if addr = 0x801000 then 116
  else if addr = 0x802100 then 45 else if addr = 0x802101 then 110 else 0

/-- The pointers to the texts stand at the end of a page and at the start of the next. -/
def callerBytes : Nat → Nat := withLong (withLong callerTexts 0x801ff8 0x800ffe) 0x802000 0x802100

/-- A program with a page of code, two pages of data and a free heap of the kernel. -/
def userCaller : State := ⟨some codeAndData, 0, fun _ => true, fun _ => false, fun _ _ => 0, fun _ => 0⟩

/-- The run of `cat -n`, under the name `cat`. -/
theorem exec_arguments_two :
    ∃ after, Returns (doExecve callerBytes 0x800ffe 2 0x801ff8 none (.built (fun _ => 0) fun _ => true))
        userCaller (.runs 0x7FFFFFE0) after ∧ after.live = userCaller.live ∧
      Marshalled callerBytes 2 0x801ff8 after.user 0x7FFFFFE0 := by
  have ran : ((doExecve callerBytes 0x800ffe 2 0x801ff8 none (.built (fun _ => 0) fun _ => true))
      userCaller).map (fun reached => reached.1.toOption) = some (some (.runs 0x7FFFFFE0)) := by
    decide +kernel
  obtain ⟨⟨outcome, after⟩, reached, outcomeEq⟩ := Option.map_eq_some_iff.mp ran
  cases outcome with
  | error ret => cases outcomeEq
  | ok value =>
    cases Option.some.inj outcomeEq
    have sound : Sound userCaller.space := by
      rintro mm ⟨⟩
      exact codeAndData_wellformed
    have settles : Settles (doExecve callerBytes 0x800ffe 2 0x801ff8 none (.built (fun _ => 0) fun _ => true))
        _ _ _ userCaller := exec_arguments sound (fun _ _ => rfl) (by decide)
    obtain ⟨live, marshalled⟩ := settles.returns _ _ reached
    exact ⟨after, reached, live, marshalled _ rfl⟩

end Ucore.ExecProofs
