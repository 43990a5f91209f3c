import Ucore.Ensures
import Ucore.Printfmt
import Ucore.Simulation

/-! What a format prints does not depend on where it is printed to: the run into a buffer
simulates the run that keeps every character. A run stops where `%e` takes the least
`int`, whose negation is itself. -/
namespace Ucore.Printfmt
open Call

variable {σ τ : Type} {rel : σ → τ → Prop} {putch : Int → Call σ Unit} {putch' : Int → Call τ Unit}

/-! ## Two places to print to -/

/-- The same arguments are left, and what has been printed is related. -/
def Alike (rel : σ → τ → Prop) (frame : Frame σ) (frame' : Frame τ) : Prop :=
  frame.ap = frame'.ap ∧ rel frame.putdat frame'.putdat

theorem vaArg_simulates : Simulates (Alike rel) vaArg vaArg := by
  rintro ⟨ap, putdat⟩ ⟨ap', putdat'⟩ ⟨same, related⟩
  obtain rfl : ap = ap' := same
  cases ap with
  | nil => exact .none
  | cons arg ap => exact .some ⟨rfl, rfl, related⟩

theorem vaInt_simulates : Simulates (Alike rel) vaInt vaInt := by
  refine .bind vaArg_simulates fun arg => ?_
  cases arg with
  | int value => exact .pure value
  | _ => exact .stop

theorem vaLong_simulates : Simulates (Alike rel) vaLong vaLong := by
  refine .bind vaArg_simulates fun arg => ?_
  cases arg with
  | long value => exact .pure value
  | _ => exact .stop

theorem vaPointer_simulates : Simulates (Alike rel) vaPointer vaPointer := by
  refine .bind vaArg_simulates fun arg => ?_
  cases arg with
  | pointer value => exact .pure value
  | _ => exact .stop

theorem vaString_simulates : Simulates (Alike rel) vaString vaString := by
  refine .bind vaArg_simulates fun arg => ?_
  cases arg with
  | string value => exact .pure value
  | _ => exact .stop

theorem getuint_simulates (lflag : Nat) : Simulates (Alike rel) (getuint lflag) (getuint lflag) := by
  rw [getuint, getuint]
  split
  · exact .bind vaLong_simulates fun value => .pure value.toNat
  · exact .bind vaInt_simulates fun value => .pure value.toNat

theorem getint_simulates (lflag : Nat) : Simulates (Alike rel) (getint lflag) (getint lflag) := by
  rw [getint, getint]
  split
  · exact .bind vaLong_simulates fun value => .pure value.toInt
  · exact .bind vaInt_simulates fun value => .pure value.toInt

section
variable (puts : ∀ ch, Simulates rel (putch ch) (putch' ch))
include puts

theorem put_simulates (ch : Int) : Simulates (Alike rel) (put putch ch) (put putch' ch) :=
  .within (puts ch) (fun _ _ related => related.2) fun _ _ _ _ related inside => ⟨related.1, inside⟩

theorem putMany_simulates (ch : Int) (count : Nat) : Simulates (Alike rel) (putMany putch ch count) (putMany putch' ch count) := by
  induction count with
  | zero => exact .pure ()
  | succ count ih => exact .bind (put_simulates puts ch) fun _ => ih

theorem printnum_simulates (num base : Nat) (width : Int) (padc : UInt8) (digits : Nat) :
    Simulates (Alike rel) (printnum putch num base width padc digits) (printnum putch' num base width padc digits) := by
  induction digits generalizing num width with
  | zero => exact .stop
  | succ digits ih =>
    refine .bind ?_ fun _ => ?_
    · split
      · exact ih _ _
      · exact putMany_simulates puts _ _
    · split
      · exact .stop
      · exact put_simulates puts _

theorem putString_simulates (altflag : Bool) (p : List UInt8) (precision width : Int) :
    Simulates (Alike rel) (putString putch altflag p precision width) (putString putch' altflag p precision width) := by
  induction p generalizing precision width with
  | nil => exact .pure width
  | cons ch p ih =>
    rw [putString, putString]
    split
    · exact .pure width
    split
    · exact .bind (put_simulates puts _) fun _ => ih _ _
    · exact .pure width

theorem stringCase_simulates (flags : Flags) : Simulates (Alike rel) (stringCase putch flags) (stringCase putch' flags) := by
  refine .bind vaString_simulates fun value => ?_
  split
  · refine .bind (putMany_simulates puts _ _) fun _ => ?_
    exact .bind (putString_simulates puts _ _ _ _) fun width => putMany_simulates puts _ _
  · exact .bind (putString_simulates puts _ _ _ _) fun width => putMany_simulates puts _ _

variable {printfmt : List UInt8 → Call (Frame σ) Unit} {printfmt' : List UInt8 → Call (Frame τ) Unit}
  (calls : ∀ fmt, Simulates (Alike rel) (printfmt fmt) (printfmt' fmt))
include calls

omit puts in
theorem nested_simulates (fmt : List UInt8) (ap : List Arg) :
    Simulates (Alike rel) (nested (printfmt fmt) ap) (nested (printfmt' fmt) ap) :=
  .within (calls fmt) (fun _ _ related => ⟨rfl, related.2⟩) fun _ _ _ _ related inside => ⟨related.1, inside.2⟩

omit puts in
theorem errorMessage_simulates (err : Int) : Simulates (Alike rel) (errorMessage printfmt err) (errorMessage printfmt' err) := by
  rw [errorMessage, errorMessage]
  split
  · exact nested_simulates calls _ _
  split
  · exact .stop
  split
  · exact .stop
  · exact nested_simulates calls _ _
  · exact nested_simulates calls _ _

theorem reswitch_simulates (fmt : List UInt8) (steps i : Nat) (flags : Flags) :
    Simulates (Alike rel) (reswitch putch printfmt fmt steps i flags) (reswitch putch' printfmt' fmt steps i flags) := by
  induction steps generalizing i flags with
  | zero => exact .stop
  | succ steps ih =>
    have numbers (num base next : Nat) : Simulates (Alike rel)
        (number putch flags num base >>= fun _ => Pure.pure next) (number putch' flags num base >>= fun _ => Pure.pure next) :=
      .bind (printnum_simulates puts _ _ _ _ _) fun _ => .pure next
    rw [reswitch, reswitch]
    cases caseOf (byteAt fmt i) with
    | minus => exact ih _ _
    | zero => exact ih _ _
    | dot => exact ih _ _
    | hash => exact ih _ _
    | l => exact ih _ _
    | star => exact .bind vaInt_simulates fun precision => ih _ _
    | digit =>
      cases widthLoop fmt (fmt.length + 1) (i + 1) (byteAt fmt i) 0 with
      | none => exact .stop
      | some reached => exact ih _ _
    | c => exact .bind vaInt_simulates fun ch => .bind (put_simulates puts _) fun _ => .pure _
    | e => exact .bind (.bind vaInt_simulates fun value => errorMessage_simulates calls _) fun _ => .pure _
    | s => exact .bind (stringCase_simulates puts flags) fun _ => .pure _
    | d =>
      refine .bind (getint_simulates _) fun num => ?_
      exact .bind (.onlyIf _ (put_simulates puts _)) fun _ => numbers _ _ _
    | u => exact .bind (getuint_simulates _) fun num => numbers _ _ _
    | o => exact .bind (getuint_simulates _) fun num => numbers _ _ _
    | x => exact .bind (getuint_simulates _) fun num => numbers _ _ _
    | p =>
      refine .bind (put_simulates puts _) fun _ => .bind (put_simulates puts _) fun _ => ?_
      exact .bind vaPointer_simulates fun num => numbers _ _ _
    | percent => exact .bind (put_simulates puts _) fun _ => .pure _
    | other =>
      refine .bind (put_simulates puts _) fun _ => ?_
      cases backUp fmt i with
      | none => exact .stop
      | some next => exact .pure next

theorem formatLoop_simulates (fmt : List UInt8) (steps i : Nat) :
    Simulates (Alike rel) (formatLoop putch printfmt fmt steps i) (formatLoop putch' printfmt' fmt steps i) := by
  induction steps generalizing i with
  | zero => exact .stop
  | succ steps ih =>
    rw [formatLoop, formatLoop]
    split
    · split
      · exact .pure ()
      · exact .bind (put_simulates puts _) fun _ => ih _
    · exact .bind (reswitch_simulates puts calls _ _ _ _) fun next => ih next

omit calls in
/-- Two places that each character goes to alike are printed to alike. -/
theorem vprintfmt_simulates (depth : Nat) (fmt : List UInt8) :
    Simulates (Alike rel) (vprintfmt putch depth fmt) (vprintfmt putch' depth fmt) := by
  induction depth generalizing fmt with
  | zero => exact .stop
  | succ depth ih => exact formatLoop_simulates puts ih _ _ _

end

/-! ## What a format asks for -/

inductive Kind where
  | int | long | pointer | string
  deriving DecidableEq

def Arg.kind : Arg → Kind
  | .int _ => .int
  | .long _ => .long
  | .pointer _ => .pointer
  | .string _ => .string

/-- A conversion that takes an argument, with the number of `l` in front of it. -/
structure Demand where
  conversion : Case
  lflag : Nat

def Demand.kind (demand : Demand) : Kind :=
  match demand.conversion with
  | .star | .c | .e => .int
  | .s => .string
  | .p => .pointer
  | _ => if 1 ≤ demand.lflag then .long else .int

/-- The arguments that the rest of a format takes, outside of a directive or behind its `%`
and some `l`. An escape that is not recognised ends there; what was in front of it is text. -/
def demands : Option Nat → List UInt8 → List Demand
  | _, [] => []
  | none, ch :: fmt =>
    if ch = '%'.toUInt8 then demands (some 0) fmt
    else if ch = 0 then []
    else demands none fmt
  | some lflag, ch :: fmt =>
    match caseOf ch with
    | .minus | .zero | .digit | .dot | .hash => demands (some lflag) fmt
    | .l => demands (some (lflag + 1)) fmt
    | .star => ⟨.star, lflag⟩ :: demands (some lflag) fmt
    | .percent => demands none fmt
    | .other => if ch = 0 then [] else demands none fmt
    | conversion => ⟨conversion, lflag⟩ :: demands none fmt

/-- The arguments begin with what is asked for. -/
def Fits : List Demand → List Arg → Prop
  | [], _ => True
  | demand :: rest, arg :: ap => arg.kind = demand.kind ∧ Fits rest ap
  | _ :: _, [] => False

def least : BitVec 32 := 0x80000000#32

/-- Some `%e` takes the least `int`. -/
def TakesLeast : List Demand → List Arg → Prop
  | demand :: rest, arg :: ap => (demand.conversion = .e ∧ arg = .int least) ∨ TakesLeast rest ap
  | _, _ => False

/-! ## Runs that leave arguments, and runs that stop -/

variable {α β : Type} {ap left between : List Arg} {good : α → Prop} {good' : β → Prop} {call : Call (Frame σ) α}

/-- With these arguments the call returns a good value and leaves those. -/
def Leaves (call : Call (Frame σ) α) (ap : List Arg) (good : α → Prop) (left : List Arg) : Prop :=
  ∀ frame, frame.ap = ap → ∃ value after, Returns call frame value after ∧ good value ∧ after.ap = left

def Halts (call : Call (Frame σ) α) (ap : List Arg) : Prop := ∀ frame, frame.ap = ap → call frame = none

theorem Leaves.pure {value : α} (held : good value) : Leaves (Pure.pure value : Call (Frame σ) α) ap good ap :=
  fun frame same => ⟨value, frame, rfl, held, same⟩

theorem Leaves.bind {rest : α → Call (Frame σ) β} (first : Leaves call ap good between)
    (goes_on : ∀ value, good value → Leaves (rest value) between good' left) : Leaves (call >>= rest) ap good' left := by
  intro frame same
  obtain ⟨value, middle, ran, held, same'⟩ := first frame same
  obtain ⟨value', after, ran', held', same''⟩ := goes_on value held middle same'
  exact ⟨value', after, returns_bind.mpr ⟨value, middle, ran, ran'⟩, held', same''⟩

theorem Leaves.any (leaves : Leaves call ap good left) : Leaves call ap (fun _ => True) left := by
  intro frame same
  obtain ⟨value, after, ran, -, same'⟩ := leaves frame same
  exact ⟨value, after, ran, trivial, same'⟩

theorem Halts.bind {rest : α → Call (Frame σ) β} (halts : Halts call ap) : Halts (call >>= rest) ap :=
  fun frame same => stops_bind.mpr (.inl (halts frame same))

theorem Leaves.halts {rest : α → Call (Frame σ) β} (first : Leaves call ap good between)
    (halts : ∀ value, good value → Halts (rest value) between) : Halts (call >>= rest) ap := by
  intro frame same
  obtain ⟨value, middle, ran, held, same'⟩ := first frame same
  exact stops_bind.mpr (.inr ⟨value, middle, ran, halts value held middle same'⟩)

theorem vaInt_leaves (value : BitVec 32) (ap : List Arg) :
    Leaves (vaInt : Call (Frame σ) _) (.int value :: ap) (fun taken => taken = value) ap := by
  rintro ⟨_, putdat⟩ rfl
  exact ⟨value, ⟨ap, putdat⟩, rfl, rfl, rfl⟩

theorem vaPointer_leaves (value : BitVec 64) (ap : List Arg) :
    Leaves (vaPointer : Call (Frame σ) _) (.pointer value :: ap) (fun taken => taken = value) ap := by
  rintro ⟨_, putdat⟩ rfl
  exact ⟨value, ⟨ap, putdat⟩, rfl, rfl, rfl⟩

theorem vaString_leaves (value : Option (List UInt8)) (ap : List Arg) :
    Leaves (vaString : Call (Frame σ) _) (.string value :: ap) (fun taken => taken = value) ap := by
  rintro ⟨_, putdat⟩ rfl
  exact ⟨value, ⟨ap, putdat⟩, rfl, rfl, rfl⟩

/-- The value of an integer argument, and that of the same bits without a sign. -/
def Arg.signed : Arg → Int
  | .int value => value.toInt
  | .long value => value.toInt
  | _ => 0

def Arg.unsigned : Arg → Nat
  | .int value => value.toNat
  | .long value => value.toNat
  | _ => 0

/-- The argument is of the type for that many `l`. -/
def Long (lflag : Nat) (arg : Arg) : Prop := arg.kind = if 1 ≤ lflag then .long else .int

theorem getuint_returns {lflag : Nat} {arg : Arg} (long : Long lflag arg) (ap : List Arg) (putdat : σ) :
    Returns (getuint lflag) ⟨arg :: ap, putdat⟩ arg.unsigned ⟨ap, putdat⟩ := by
  rw [Long] at long
  rw [getuint]
  split at long
  · rename_i longer
    rw [if_pos longer]
    cases arg <;> cases long
    rfl
  · rename_i short
    rw [if_neg short]
    cases arg <;> cases long
    rfl

theorem getint_returns {lflag : Nat} {arg : Arg} (long : Long lflag arg) (ap : List Arg) (putdat : σ) :
    Returns (getint lflag) ⟨arg :: ap, putdat⟩ arg.signed ⟨ap, putdat⟩ := by
  rw [Long] at long
  rw [getint]
  split at long
  · rename_i longer
    rw [if_pos longer]
    cases arg <;> cases long
    rfl
  · rename_i short
    rw [if_neg short]
    cases arg <;> cases long
    rfl

theorem getuint_leaves {lflag : Nat} {arg : Arg} (long : Long lflag arg) (ap : List Arg) :
    Leaves (getuint lflag : Call (Frame σ) _) (arg :: ap) (fun taken => taken = arg.unsigned) ap := by
  rintro ⟨_, putdat⟩ rfl
  exact ⟨_, _, getuint_returns long ap putdat, rfl, rfl⟩

theorem getint_leaves {lflag : Nat} {arg : Arg} (long : Long lflag arg) (ap : List Arg) :
    Leaves (getint lflag : Call (Frame σ) _) (arg :: ap) (fun taken => taken = arg.signed) ap := by
  rintro ⟨_, putdat⟩ rfl
  exact ⟨_, _, getint_returns long ap putdat, rfl, rfl⟩

section
variable (total : ∀ ch putdat, ∃ after, putch ch putdat = some (.ok (), after))
include total

theorem put_leaves (ch : Int) : Leaves (put putch ch) ap (fun _ => True) ap := by
  rintro ⟨_, putdat⟩ rfl
  obtain ⟨after, ran⟩ := total ch putdat
  exact ⟨(), ⟨_, after⟩, returns_within.mpr ⟨after, ran, rfl⟩, trivial, rfl⟩

theorem putMany_leaves (ch : Int) (count : Nat) : Leaves (putMany putch ch count) ap (fun _ => True) ap := by
  induction count with
  | zero => exact .pure trivial
  | succ count ih => exact (put_leaves total ch).bind fun _ _ => ih

theorem printnum_leaves {num base digits : Nat} {width : Int} {padc : UInt8} (two : 2 ≤ base) (sixteen : base ≤ 16)
    (some_digits : 0 < digits) (small : num < base ^ digits) :
    Leaves (printnum putch num base width padc digits) ap (fun _ => True) ap := by
  induction digits generalizing num width with
  | zero => cases some_digits
  | succ digits ih =>
    have before : Leaves (if base ≤ num then printnum putch (num / base) base (int32 (width - 1)) padc digits
        else putMany putch padc.toNat (int32 (width - 1)).toNat) ap (fun _ => True) ap := by
      split
      · rename_i more
        have fewer : num / base < base ^ digits := Nat.div_lt_of_lt_mul (by rwa [Nat.pow_succ, Nat.mul_comm] at small)
        refine ih (Nat.pos_of_ne_zero ?_) fewer
        rintro rfl
        have := Nat.div_pos more (by omega)
        rw [Nat.pow_zero] at fewer
        omega
      · exact putMany_leaves total _ _
    refine before.bind fun _ _ => ?_
    have inside : num % base < digitChars.length := lt_of_lt_of_le (Nat.mod_lt _ (by omega)) sixteen
    rw [List.getElem?_eq_getElem inside]
    exact put_leaves total _

theorem number_leaves {num base : Nat} {flags : Flags} (two : 2 ≤ base) (sixteen : base ≤ 16) (small : num < 2 ^ 64) :
    Leaves (number putch flags num base) ap (fun _ => True) ap :=
  printnum_leaves total two sixteen (by decide) (small.trans_le (Nat.pow_le_pow_left two 64))

theorem putString_leaves (altflag : Bool) (p : List UInt8) (precision width : Int) :
    Leaves (putString putch altflag p precision width) ap (fun _ => True) ap := by
  induction p generalizing precision width with
  | nil => exact .pure trivial
  | cons ch p ih =>
    rw [putString]
    split
    · exact .pure trivial
    split
    · exact (put_leaves total _).bind fun _ _ => ih _ _
    · exact .pure trivial

theorem stringCase_leaves (flags : Flags) (value : Option (List UInt8)) (ap : List Arg) :
    Leaves (stringCase putch flags) (.string value :: ap) (fun _ => True) ap := by
  refine (vaString_leaves value ap).bind fun taken _ => ?_
  split
  · refine (putMany_leaves total _ _).bind fun _ _ => ?_
    exact (putString_leaves total _ _ _ _).bind fun width _ => putMany_leaves total _ _
  · exact (putString_leaves total _ _ _ _).bind fun width _ => putMany_leaves total _ _

end

/-! ## Error messages -/

variable {printfmt : List UInt8 → Call (Frame σ) Unit}

/-- The calls of `printfmt` for an error message return. -/
structure Ready (printfmt : List UInt8 → Call (Frame σ) Unit) : Prop where
  number : ∀ value, ∃ left, Leaves (printfmt (bytes "error %d")) [.int value] (fun _ => True) left
  text : ∀ p, ∃ left, Leaves (printfmt (bytes "%s")) [.string (some p)] (fun _ => True) left

theorem nested_leaves {inner : List Arg} {call : Call (Frame σ) Unit} (leaves : Leaves call inner (fun _ => True) left) (ap : List Arg) :
    Leaves (nested call inner) ap (fun _ => True) ap := by
  rintro ⟨_, putdat⟩ rfl
  obtain ⟨value, after, ran, -, -⟩ := leaves ⟨inner, putdat⟩ rfl
  exact ⟨value, _, returns_within.mpr ⟨after, ran, rfl⟩, trivial, rfl⟩

theorem errorMessage_leaves (ready : Ready printfmt) {err : Int} (nonneg : 0 ≤ err) (ap : List Arg) :
    Leaves (errorMessage printfmt err) ap (fun _ => True) ap := by
  obtain ⟨_, unknown⟩ := ready.number (BitVec.ofInt 32 err)
  rw [errorMessage]
  split
  · exact nested_leaves unknown ap
  rename_i known
  rw [if_neg (Int.not_lt.mpr nonneg)]
  split
  · rename_i outside
    have short : errorString.length = 25 := rfl
    have past := List.getElem?_eq_none_iff.mp outside
    simp only [maxerror] at known
    omega
  · exact nested_leaves unknown ap
  · rename_i p _
    obtain ⟨_, text⟩ := ready.text (bytes p)
    exact nested_leaves text ap

theorem errorMessage_halts {err : Int} (negative : err < 0) (ap : List Arg) : Halts (errorMessage printfmt err) ap := by
  have small : ¬ maxerror < err := by
    simp only [maxerror]
    omega
  rw [errorMessage, if_neg small, if_pos negative]
  exact fun _ _ => rfl

/-- The sign comes off every `int` but the least one. -/
theorem absErr_neg_iff (value : BitVec 32) : absErr value < 0 ↔ value = least := by
  have low := BitVec.le_two_mul_toInt (x := value)
  have high := BitVec.two_mul_toInt_lt (x := value)
  have bottom : least.toInt = -2 ^ 31 := by decide
  constructor
  · intro negative
    apply BitVec.eq_of_toInt_eq
    rw [bottom]
    rw [absErr] at negative
    split at negative
    · rename_i below
      by_contra other
      have same : int32 (-value.toInt) = -value.toInt := Int.bmod_eq_of_le (by omega) (by omega)
      omega
    · omega
  · rintro rfl
    decide

/-! ## Scanning a format -/

variable {fmt : List UInt8} {start i steps : Nat}

theorem drop_byteAt (below : i < fmt.length) : fmt.drop i = byteAt fmt i :: fmt.drop (i + 1) := by
  rw [List.drop_eq_getElem_cons below, byteAt, List.getElem?_eq_getElem below, Option.getD_some]

theorem byteAt_past (past : fmt.length ≤ i) : byteAt fmt i = 0 := by
  rw [byteAt, List.getElem?_eq_none past, Option.getD_none]

/-- Between the byte behind a `%` and `i` there are flags only. -/
structure Escape (fmt : List UInt8) (start i : Nat) : Prop where
  begun : 0 < start ∧ byteAt fmt (start - 1) = '%'.toUInt8
  order : start ≤ i ∧ i ≤ fmt.length
  plain : ∀ k, start ≤ k → k < i → byteAt fmt k ≠ '%'.toUInt8 ∧ byteAt fmt k ≠ 0

theorem Escape.backUp (escape : Escape fmt start i) : backUp fmt i = some start := by
  obtain ⟨begun, ⟨low, high⟩, plain⟩ := escape
  induction i, low using Nat.le_induction with
  | base =>
    obtain ⟨k, rfl⟩ : ∃ k, start = k + 1 := ⟨start - 1, by omega⟩
    rw [Nat.add_sub_cancel] at begun
    rw [Printfmt.backUp, if_pos begun.2]
  | succ i low ih =>
    rw [Printfmt.backUp, if_neg (plain i low (by omega)).1]
    exact ih (fun k above below => plain k above (by omega)) (by omega)

/-- The flags of an escape that is not recognised are text. -/
theorem Escape.demands (escape : Escape fmt start i) : demands none (fmt.drop start) = demands none (fmt.drop i) := by
  obtain ⟨begun, ⟨low, high⟩, plain⟩ := escape
  induction i, low using Nat.le_induction with
  | base => rfl
  | succ i low ih =>
    rw [ih (fun k above below => plain k above (by omega)) (by omega)]
    obtain ⟨percent, nul⟩ := plain i low (by omega)
    rw [drop_byteAt (by omega), Printfmt.demands, if_neg percent, if_neg nul]

theorem Escape.next (escape : Escape fmt start i) (flag : byteAt fmt i ≠ '%'.toUInt8 ∧ byteAt fmt i ≠ 0) :
    Escape fmt start (i + 1) := by
  have below : i < fmt.length := by
    by_contra past
    exact flag.2 (byteAt_past (by omega))
  refine ⟨escape.begun, ⟨by have := escape.order; omega, below⟩, fun k low high => ?_⟩
  rcases Nat.lt_or_eq_of_le (Nat.lt_succ_iff.mp high) with earlier | rfl
  · exact escape.plain k low earlier
  · exact flag

theorem ne_of_case {ch : UInt8} (percent : caseOf ch ≠ .percent) (other : caseOf ch ≠ .other) : ch ≠ '%'.toUInt8 ∧ ch ≠ 0 := by
  constructor
  · rintro rfl
    exact percent (by decide)
  · rintro rfl
    exact other (by decide)

/-- A decimal digit is a flag or begins a width. -/
theorem case_of_digit {ch : UInt8} (low : '0'.toNat ≤ ch.toNat) (high : ch.toNat ≤ '9'.toNat) :
    caseOf ch = .zero ∨ caseOf ch = .digit := by
  have bounds : 48 ≤ ch.toNat ∧ ch.toNat ≤ 57 := ⟨low, high⟩
  obtain ⟨n, same⟩ : ∃ n, n = ch.toNat := ⟨_, rfl⟩
  rw [caseOf, ← same]
  rw [← same] at bounds
  obtain ⟨above, below⟩ := bounds
  interval_cases n <;> decide

theorem widthLoop_ends (ch : UInt8) (precision : Int) (inside : i ≤ fmt.length) (enough : fmt.length - i < steps) :
    ∃ value next, widthLoop fmt steps i ch precision = some (value, next) ∧ i ≤ next ∧ next ≤ fmt.length ∧
      ∀ k, i ≤ k → k < next → caseOf (byteAt fmt k) = .zero ∨ caseOf (byteAt fmt k) = .digit := by
  induction steps generalizing i ch precision with
  | zero => omega
  | succ steps ih =>
    rw [widthLoop]
    split
    · exact ⟨_, i, rfl, le_rfl, inside, fun k low high => by omega⟩
    · rename_i digit
      simp only [Bool.or_eq_true, decide_eq_true_eq, not_or, Nat.not_lt] at digit
      have below : i < fmt.length := by
        by_contra past
        rw [byteAt_past (by omega)] at digit
        exact absurd digit.1 (by decide)
      obtain ⟨value, next, ran, low, high, digits⟩ := ih (byteAt fmt i) _ below (by omega)
      refine ⟨value, next, ran, by omega, high, fun k above earlier => ?_⟩
      rcases Nat.eq_or_lt_of_le above with rfl | later
      · exact case_of_digit digit.1 digit.2
      · exact digits k later earlier

/-- The digits of a width ask for nothing. -/
theorem demands_digits {next lflag : Nat} (low : i ≤ next) (high : next ≤ fmt.length)
    (digits : ∀ k, i ≤ k → k < next → caseOf (byteAt fmt k) = .zero ∨ caseOf (byteAt fmt k) = .digit) :
    demands (some lflag) (fmt.drop i) = demands (some lflag) (fmt.drop next) := by
  induction next, low using Nat.le_induction with
  | base => rfl
  | succ next low ih =>
    rw [ih (by omega) fun k above below => digits k above (by omega), drop_byteAt (by omega), demands]
    rcases digits next low (by omega) with case | case <;> rw [case]

theorem Escape.digits {next : Nat} (escape : Escape fmt start i) (low : i ≤ next) (high : next ≤ fmt.length)
    (digits : ∀ k, i ≤ k → k < next → caseOf (byteAt fmt k) = .zero ∨ caseOf (byteAt fmt k) = .digit) :
    Escape fmt start next := by
  refine ⟨escape.begun, ⟨escape.order.1.trans low, high⟩, fun k above below => ?_⟩
  by_cases earlier : k < i
  · exact escape.plain k above earlier
  · rcases digits k (by omega) below with case | case <;> exact ne_of_case (by simp [case]) (by simp [case])

/-! ## Directives -/

/-- Behind the directive the format goes on at `next`, with the arguments that are left. -/
structure GoesOn (fmt : List UInt8) (start : Nat) (asked : List Demand) (ap : List Arg) (next : Nat) (left : List Arg) : Prop where
  forward : start ≤ next ∧ next ≤ fmt.length
  fits : Fits (demands none (fmt.drop next)) left
  taken : TakesLeast asked ap ↔ TakesLeast (demands none (fmt.drop next)) left
  asked : ∀ demand ∈ demands none (fmt.drop next), demand ∈ asked

/-- The directive ends, or it stops at the least `int`. -/
def Ends (call : Call (Frame σ) Nat) (fmt : List UInt8) (start : Nat) (asked : List Demand) (ap : List Arg) : Prop :=
  (Halts call ap ∧ TakesLeast asked ap) ∨ ∃ next left, Leaves call ap (fun value => value = next) left ∧ GoesOn fmt start asked ap next left

theorem Ends.star {rest : BitVec 32 → Call (Frame σ) Nat} {asked : List Demand} {lflag : Nat}
    (fits : Fits (⟨.star, lflag⟩ :: asked) ap) (goes_on : ∀ value left, Fits asked left → Ends (rest value) fmt start asked left) :
    Ends (vaInt >>= rest) fmt start (⟨.star, lflag⟩ :: asked) ap := by
  rcases ap with _ | ⟨arg, left⟩
  · exact fits.elim
  obtain ⟨kind, fits⟩ := fits
  cases arg with
  | int value =>
    rcases goes_on value left fits with ⟨halts, least⟩ | ⟨next, left', leaves, on⟩
    · exact .inl ⟨(vaInt_leaves value left).halts fun taken same => same ▸ halts, .inr least⟩
    · refine .inr ⟨next, left', (vaInt_leaves value left).bind fun taken same => same ▸ leaves, on.forward, on.fits, ?_, ?_⟩
      · rw [← on.taken]
        simp [TakesLeast]
      · exact fun demand member => List.mem_cons_of_mem _ (on.asked demand member)
  | _ => cases kind

/-- A conversion that takes an argument and returns. -/
theorem Ends.conversion {call : Call (Frame σ) Nat} {conversion : Case} {lflag : Nat} (below : i < fmt.length) (order : start ≤ i)
    (fits : Fits (⟨conversion, lflag⟩ :: demands none (fmt.drop (i + 1))) ap) (other : conversion ≠ .e)
    (leaves : ∀ arg left, arg.kind = Demand.kind ⟨conversion, lflag⟩ → Leaves call (arg :: left) (fun value => value = i + 1) left) :
    Ends call fmt start (⟨conversion, lflag⟩ :: demands none (fmt.drop (i + 1))) ap := by
  rcases ap with _ | ⟨arg, left⟩
  · exact fits.elim
  obtain ⟨kind, fits⟩ := fits
  refine .inr ⟨i + 1, left, leaves arg left kind, ⟨by omega, below⟩, fits, ?_, ?_⟩
  · simp [TakesLeast, other]
  · exact fun demand member => List.mem_cons_of_mem _ member

/-- `%e` stops where it takes the least `int`. -/
theorem Ends.error {lflag : Nat} (below : i < fmt.length) (order : start ≤ i)
    (fits : Fits (⟨.e, lflag⟩ :: demands none (fmt.drop (i + 1))) ap) (ready : Ready printfmt) :
    Ends (errorCase printfmt >>= fun _ => Pure.pure (i + 1)) fmt start (⟨.e, lflag⟩ :: demands none (fmt.drop (i + 1))) ap := by
  rcases ap with _ | ⟨arg, left⟩
  · exact fits.elim
  obtain ⟨kind, fits⟩ := fits
  cases arg with
  | int value =>
    by_cases bottom : value = least
    · refine .inl ⟨Halts.bind ((vaInt_leaves value left).halts fun taken same => ?_), .inl ⟨rfl, by rw [bottom]⟩⟩
      subst same
      exact errorMessage_halts ((absErr_neg_iff taken).mpr bottom) left
    · have nonneg : 0 ≤ absErr value := Int.not_lt.mp (mt (absErr_neg_iff value).mp bottom)
      have leaves : Leaves (errorCase printfmt) (.int value :: left) (fun _ => True) left :=
        (vaInt_leaves value left).bind fun taken same => same ▸ errorMessage_leaves ready nonneg left
      refine .inr ⟨i + 1, left, leaves.bind fun _ _ => .pure rfl, ⟨by omega, below⟩, fits, ?_, ?_⟩
      · simp [TakesLeast, bottom]
      · exact fun demand member => List.mem_cons_of_mem _ member
  | _ => cases kind

/-- A call that takes no argument and after which the format goes on at `next`. -/
theorem Ends.plain {call : Call (Frame σ) Nat} {next : Nat} {asked : List Demand} (forward : start ≤ next ∧ next ≤ fmt.length)
    (same : demands none (fmt.drop next) = asked) (fits : Fits asked ap) (leaves : Leaves call ap (fun value => value = next) ap) :
    Ends call fmt start asked ap := by
  subst same
  exact .inr ⟨next, ap, leaves, forward, fits, Iff.rfl, fun _ member => member⟩

section
variable (total : ∀ ch putdat, ∃ after, putch ch putdat = some (.ok (), after))
include total

/-- An escape that is not recognised is printed from its `%` on. -/
theorem Ends.other {lflag : Nat} (escape : Escape fmt start i) (case : caseOf (byteAt fmt i) = .other)
    (fits : Fits (demands (some lflag) (fmt.drop i)) ap) :
    Ends (put putch '%'.toNat >>= fun _ => match backUp fmt i with | none => stop | some next => Pure.pure next) fmt start
      (demands (some lflag) (fmt.drop i)) ap := by
  have text : demands none (fmt.drop i) = demands (some lflag) (fmt.drop i) := by
    by_cases below : i < fmt.length
    · have percent : byteAt fmt i ≠ '%'.toUInt8 := by
        intro same
        rw [same] at case
        exact absurd case (by decide)
      rw [drop_byteAt below, demands, demands, if_neg percent, case]
    · rw [List.drop_eq_nil_of_le (Nat.not_lt.mp below)]
      rfl
  rw [escape.backUp]
  refine Ends.plain ⟨le_rfl, escape.order.1.trans escape.order.2⟩ (escape.demands.trans text) fits ?_
  exact (put_leaves total _).bind fun _ _ => .pure rfl

omit total in
theorem processPrecision_lflag (flags : Flags) : (processPrecision flags).lflag = flags.lflag := by
  rw [processPrecision]
  split <;> rfl

omit total in
theorem unsigned_lt (arg : Arg) : arg.unsigned < 2 ^ 64 := by
  cases arg with
  | int value => exact value.isLt.trans (by decide)
  | long value => exact value.isLt
  | _ => exact Nat.two_pow_pos 64

omit total in
theorem natAbs_signed_lt (arg : Arg) : arg.signed.natAbs < 2 ^ 64 := by
  cases arg with
  | int value =>
    have low := BitVec.le_two_mul_toInt (x := value)
    have high := BitVec.two_mul_toInt_lt (x := value)
    simp only [Arg.signed]
    omega
  | long value =>
    have low := BitVec.le_two_mul_toInt (x := value)
    have high := BitVec.two_mul_toInt_lt (x := value)
    simp only [Arg.signed]
    omega
  | _ => exact Nat.two_pow_pos 64

/-- Every directive ends, unless it is a `%e` that takes the least `int`. -/
theorem reswitch_ends {flags : Flags} (escape : Escape fmt start i) (enough : fmt.length - i < steps)
    (fits : Fits (demands (some flags.lflag) (fmt.drop i)) ap)
    (sure : ∀ demand ∈ demands (some flags.lflag) (fmt.drop i), demand.conversion = .e → Ready printfmt) :
    Ends (reswitch putch printfmt fmt steps i flags) fmt start (demands (some flags.lflag) (fmt.drop i)) ap := by
  induction steps generalizing i flags ap with
  | zero => omega
  | succ steps ih =>
    have order := escape.order
    by_cases other : caseOf (byteAt fmt i) = .other
    · rw [reswitch, other]
      exact Ends.other total escape other fits
    have below : i < fmt.length := by
      by_contra past
      rw [byteAt_past (Nat.not_lt.mp past)] at other
      exact other (by decide)
    have flag (percent : caseOf (byteAt fmt i) ≠ .percent) : Escape fmt start (i + 1) :=
      escape.next (ne_of_case percent other)
    have prints (base : Nat) (two : 2 ≤ base) (sixteen : base ≤ 16) (arg : Arg) (left : List Arg) (long : Long flags.lflag arg) :
        Leaves (getuint flags.lflag >>= fun num => number putch flags num base >>= fun _ => Pure.pure (i + 1)) (arg :: left)
          (fun value => value = i + 1) left := by
      refine (getuint_leaves long left).bind fun num same => ?_
      subst same
      exact (number_leaves total two sixteen (unsigned_lt arg)).bind fun _ _ => .pure rfl
    rw [reswitch]
    rw [drop_byteAt below] at fits sure ⊢
    cases case : caseOf (byteAt fmt i) with
    | other => exact absurd case other
    | minus =>
      simp only [demands, case] at fits sure ⊢
      exact ih (flag (by simp [case])) (by omega) fits sure
    | zero =>
      simp only [demands, case] at fits sure ⊢
      exact ih (flag (by simp [case])) (by omega) fits sure
    | hash =>
      simp only [demands, case] at fits sure ⊢
      exact ih (flag (by simp [case])) (by omega) fits sure
    | l =>
      simp only [demands, case] at fits sure ⊢
      exact ih (flag (by simp [case])) (by omega) fits sure
    | dot =>
      simp only [demands, case] at fits sure ⊢
      split
      · exact ih (flag (by simp [case])) (by omega) fits sure
      · exact ih (flag (by simp [case])) (by omega) fits sure
    | digit =>
      simp only [demands, case] at fits sure ⊢
      obtain ⟨value, next, ran, low, high, digits⟩ := widthLoop_ends (byteAt fmt i) 0 below (by omega : fmt.length - (i + 1) < fmt.length + 1)
      rw [demands_digits low high digits] at fits sure ⊢
      rw [ran]
      have escape' := (flag (by simp [case])).digits low high digits
      change Ends (reswitch putch printfmt fmt steps next (processPrecision { flags with precision := value })) fmt start _ ap
      generalize changed : processPrecision { flags with precision := value } = flags'
      have same : flags'.lflag = flags.lflag := changed ▸ processPrecision_lflag _
      rw [← same] at fits sure ⊢
      exact ih escape' (by omega) fits sure
    | star =>
      simp only [demands, case] at fits sure ⊢
      refine Ends.star fits fun value left fits => ?_
      generalize changed : processPrecision { flags with precision := value.toInt } = flags'
      have same : flags'.lflag = flags.lflag := changed ▸ processPrecision_lflag _
      rw [← same] at fits sure ⊢
      exact ih (flag (by simp [case])) (by omega) fits fun demand member => sure demand (List.mem_cons_of_mem _ member)
    | percent =>
      simp only [demands, case] at fits sure ⊢
      exact Ends.plain ⟨by omega, below⟩ rfl fits ((put_leaves total _).bind fun _ _ => .pure rfl)
    | e =>
      simp only [demands, case] at fits sure ⊢
      exact Ends.error below order.1 fits (sure _ List.mem_cons_self rfl)
    | c =>
      simp only [demands, case] at fits sure ⊢
      refine Ends.conversion below order.1 fits (by simp) fun arg left kind => ?_
      cases arg with
      | int value => exact (vaInt_leaves value left).bind fun _ _ => (put_leaves total _).bind fun _ _ => .pure rfl
      | _ => cases kind
    | s =>
      simp only [demands, case] at fits sure ⊢
      refine Ends.conversion below order.1 fits (by simp) fun arg left kind => ?_
      cases arg with
      | string value => exact (stringCase_leaves total flags value left).bind fun _ _ => .pure rfl
      | _ => cases kind
    | d =>
      simp only [demands, case] at fits sure ⊢
      refine Ends.conversion below order.1 fits (by simp) fun arg left kind => ?_
      have long : Long flags.lflag arg := kind
      refine (getint_leaves long left).bind fun num same => ?_
      subst same
      have sign : Leaves (onlyIf (arg.signed < 0) (put putch '-'.toNat)) left (fun _ => True) left := by
        rw [onlyIf]
        split
        · exact put_leaves total _
        · exact .pure trivial
      exact sign.bind fun _ _ =>
        (number_leaves total (by decide) (by decide) (natAbs_signed_lt arg)).bind fun _ _ => .pure rfl
    | u =>
      simp only [demands, case] at fits sure ⊢
      exact Ends.conversion below order.1 fits (by simp) fun arg left kind => prints 10 (by decide) (by decide) arg left kind
    | o =>
      simp only [demands, case] at fits sure ⊢
      exact Ends.conversion below order.1 fits (by simp) fun arg left kind => prints 8 (by decide) (by decide) arg left kind
    | x =>
      simp only [demands, case] at fits sure ⊢
      exact Ends.conversion below order.1 fits (by simp) fun arg left kind => prints 16 (by decide) (by decide) arg left kind
    | p =>
      simp only [demands, case] at fits sure ⊢
      refine Ends.conversion below order.1 fits (by simp) fun arg left kind => ?_
      cases arg with
      | pointer value =>
        refine (put_leaves total _).bind fun _ _ => (put_leaves total _).bind fun _ _ => ?_
        refine (vaPointer_leaves value left).bind fun _ _ => ?_
        exact (number_leaves total (by decide) (by decide) (BitVec.isLt _)).bind fun _ _ => .pure rfl
      | _ => cases kind

/-- The loop over the rest of a format stops if and only if a `%e` takes the least `int`. -/
theorem formatLoop_ends (inside : i ≤ fmt.length) (enough : fmt.length - i < steps) (fits : Fits (demands none (fmt.drop i)) ap)
    (sure : ∀ demand ∈ demands none (fmt.drop i), demand.conversion = .e → Ready printfmt) :
    (TakesLeast (demands none (fmt.drop i)) ap → Halts (formatLoop putch printfmt fmt steps i) ap) ∧
      (¬ TakesLeast (demands none (fmt.drop i)) ap →
        ∃ left, Leaves (formatLoop putch printfmt fmt steps i) ap (fun _ => True) left) := by
  induction steps generalizing i ap with
  | zero => omega
  | succ steps ih =>
    rw [formatLoop]
    by_cases percent : byteAt fmt i = '%'.toUInt8
    · have below : i < fmt.length := by
        by_contra past
        rw [byteAt_past (Nat.not_lt.mp past)] at percent
        exact absurd percent (by decide)
      have asked : demands none (fmt.drop i) = demands (some 0) (fmt.drop (i + 1)) := by
        rw [drop_byteAt below, demands, if_pos percent]
      rw [asked] at fits sure ⊢
      have escape : Escape fmt (i + 1) (i + 1) :=
        ⟨⟨Nat.succ_pos i, percent⟩, ⟨le_rfl, below⟩, fun k low high => by omega⟩
      simp only [percent, ne_eq, not_true_eq_false, ↓reduceIte]
      have ends : Ends (reswitch putch printfmt fmt (fmt.length + 1) (i + 1) noFlags) fmt (i + 1)
        (demands (some 0) (fmt.drop (i + 1))) ap := reswitch_ends total escape (by omega) fits sure
      rcases ends with ⟨halts, least⟩ | ⟨next, left, leaves, forward, fits', taken, inherited⟩
      · exact ⟨fun _ => halts.bind, fun spared => absurd least spared⟩
      · have rest := ih forward.2 (by omega) fits' fun demand member => sure demand (inherited demand member)
        constructor
        · intro least
          exact leaves.halts fun value same => same ▸ rest.1 (taken.mp least)
        · intro spared
          obtain ⟨left', leaves'⟩ := rest.2 (mt taken.mpr spared)
          exact ⟨left', leaves.bind fun value same => same ▸ leaves'⟩
    · simp only [percent, ne_eq, not_false_eq_true, ↓reduceIte]
      by_cases nul : byteAt fmt i = 0
      · have asked : demands none (fmt.drop i) = [] := by
          by_cases below : i < fmt.length
          · rw [drop_byteAt below, demands, if_neg percent, if_pos nul]
          · rw [List.drop_eq_nil_of_le (Nat.not_lt.mp below)]
            rfl
        rw [asked, if_pos nul]
        exact ⟨fun least => least.elim, fun _ => ⟨ap, .pure trivial⟩⟩
      · have below : i < fmt.length := by
          by_contra past
          exact nul (byteAt_past (Nat.not_lt.mp past))
        have asked : demands none (fmt.drop i) = demands none (fmt.drop (i + 1)) := by
          rw [drop_byteAt below, demands, if_neg percent, if_neg nul]
        rw [asked] at fits sure ⊢
        rw [if_neg nul]
        have rest := ih below (by omega) fits sure
        constructor
        · intro least
          exact (put_leaves total _).halts fun _ _ => rest.1 least
        · intro spared
          obtain ⟨left, leaves⟩ := rest.2 spared
          exact ⟨left, (put_leaves total _).bind fun _ _ => leaves⟩

/-- A format without `%e` does not need the calls of `printfmt`. -/
theorem vprintfmt_plain (depth : Nat) (fits : Fits (demands none fmt) ap)
    (plain : ∀ demand ∈ demands none fmt, demand.conversion ≠ .e) (spared : ¬ TakesLeast (demands none fmt) ap) :
    ∃ left, Leaves (vprintfmt putch (depth + 1) fmt) ap (fun _ => True) left :=
  (formatLoop_ends total (Nat.zero_le _) (Nat.lt_succ_self _) fits fun demand member same =>
    absurd same (plain demand member)).2 spared

theorem vprintfmt_ready (depth : Nat) : Ready (vprintfmt putch (depth + 1)) where
  number value := by
    have asked : demands none (bytes "error %d") = [⟨.d, 0⟩] := rfl
    apply vprintfmt_plain total depth <;> rw [asked]
    · exact ⟨rfl, trivial⟩
    · simp
    · simp [TakesLeast]
  text p := by
    have asked : demands none (bytes "%s") = [⟨.s, 0⟩] := rfl
    apply vprintfmt_plain total depth <;> rw [asked]
    · exact ⟨rfl, trivial⟩
    · simp
    · simp [TakesLeast]

/-- A format returns with arguments that fit it, unless a `%e` takes the least `int`. -/
theorem vprintfmt_ends (fits : Fits (demands none fmt) ap) :
    (TakesLeast (demands none fmt) ap → Halts (vprintfmt putch 2 fmt) ap) ∧
      (¬ TakesLeast (demands none fmt) ap → ∃ left, Leaves (vprintfmt putch 2 fmt) ap (fun _ => True) left) := by
  exact formatLoop_ends total (Nat.zero_le _) (Nat.lt_succ_self _) fits fun _ _ _ => vprintfmt_ready total 0

end
/-! ## Printing into a buffer -/

/-- Every character is kept. -/
def textPutch (ch : Int) : Call (List UInt8) Unit := modify fun text => text ++ [byteOf ch]

variable {str text : List UInt8} {b : Sprintbuf}

/-- The buffer holds the text up to its last byte but one, and counts all of it. -/
structure Buffered (str : List UInt8) (b : Sprintbuf) (text : List UInt8) : Prop where
  written : b.str = text.take (str.length - 1) ++ str.drop (min text.length (str.length - 1))
  place : b.buf = min text.length (str.length - 1)
  limit : b.ebuf = str.length - 1
  counted : b.cnt = int32 text.length

theorem int32_succ (n : Nat) : int32 (int32 n + 1) = int32 ((n + 1 : Nat) : Int) := by
  rw [int32, int32, int32, Int.bmod_add_bmod, Nat.cast_add, Nat.cast_one]

theorem Buffered.length (buffered : Buffered str b text) : b.str.length = str.length := by
  rw [buffered.written, List.length_append, List.length_take, List.length_drop]
  omega

theorem storeByte_returns {b : Sprintbuf} (inside : i < b.str.length) (byte : UInt8) :
    Returns (storeByte i byte) b () { b with str := b.str.set i byte } :=
  returns_bind.mpr ⟨b, b, rfl, returns_bind.mpr ⟨(), b, returns_assert.mpr ⟨by simp [inside], rfl⟩, rfl⟩⟩

/-- The byte behind the text goes where the text ends. -/
theorem set_behind (below : text.length < str.length) (byte : UInt8) :
    (text ++ str.drop text.length).set text.length byte = text ++ [byte] ++ str.drop (text.length + 1) := by
  rw [List.set_append_right _ _ le_rfl, Nat.sub_self, List.drop_eq_getElem_cons below, List.set_cons_zero, List.append_assoc,
    List.singleton_append]

theorem Buffered.push (buffered : Buffered str b text) (ch : Int) :
    ∃ after, Returns (sprintputch ch) b () after ∧ Buffered str after (text ++ [byteOf ch]) := by
  have counted : int32 (b.cnt + 1) = int32 ((text ++ [byteOf ch]).length : Nat) := by
    rw [buffered.counted, List.length_append, List.length_singleton]
    exact int32_succ text.length
  by_cases room : text.length < str.length - 1
  · have place : b.buf = text.length := buffered.place.trans (by omega)
    let counting : Sprintbuf := { b with cnt := int32 (b.cnt + 1) }
    have inside : counting.buf < counting.str.length := by
      change b.buf < b.str.length
      rw [place, buffered.length]
      omega
    let stored : Sprintbuf := { b with cnt := int32 (b.cnt + 1), str := b.str.set b.buf (byteOf ch) }
    have stores : Returns (storeByte b.buf (byteOf ch)) counting () stored :=
      storeByte_returns inside _
    have open_buffer : b.buf < b.ebuf := by
      rw [place, buffered.limit]
      exact room
    refine ⟨{ stored with buf := b.buf + 1 }, ?_, ?_, ?_, buffered.limit, counted⟩
    · refine returns_bind.mpr ⟨(), _, rfl, returns_bind.mpr ⟨_, _, rfl, ?_⟩⟩
      rw [if_pos open_buffer]
      exact returns_bind.mpr ⟨(), stored, stores, rfl⟩
    · have all : text.take (str.length - 1) = text := List.take_of_length_le (by omega)
      have more : (text ++ [byteOf ch]).take (str.length - 1) = text ++ [byteOf ch] :=
        List.take_of_length_le (by simp; omega)
      have same : b.str.set b.buf (byteOf ch) = text ++ [byteOf ch] ++ str.drop (text.length + 1) := by
        rw [place, buffered.written, all, Nat.min_eq_left (by omega)]
        exact set_behind (by omega) (byteOf ch)
      rw [more, List.length_append, List.length_singleton, Nat.min_eq_left (by omega)]
      exact same
    · change b.buf + 1 = _
      rw [place, List.length_append, List.length_singleton]
      omega
  · have place : b.buf = str.length - 1 := buffered.place.trans (by omega)
    refine ⟨{ b with cnt := int32 (b.cnt + 1) }, ?_, ?_, ?_, buffered.limit, counted⟩
    · refine returns_bind.mpr ⟨(), _, rfl, returns_bind.mpr ⟨_, _, rfl, ?_⟩⟩
      rw [if_neg (by rw [place, buffered.limit]; omega)]
      rfl
    · change b.str = _
      rw [buffered.written, List.take_append_of_le_length (by omega), List.length_append, List.length_singleton,
        Nat.min_eq_right (by omega), Nat.min_eq_right (by omega)]
    · change b.buf = _
      rw [place, List.length_append, List.length_singleton]
      omega

theorem sprintputch_simulates (str : List UInt8) (ch : Int) : Simulates (Buffered str) (sprintputch ch) (textPutch ch) := by
  intro b text buffered
  obtain ⟨after, ran, buffered'⟩ := buffered.push ch
  rw [ran]
  exact .some ⟨rfl, buffered'⟩

/-! ## Bounded formatting -/

/-- The text that a format prints where there is no bound. -/
def Prints (fmt : List UInt8) (ap : List Arg) (text : List UInt8) : Prop :=
  ∃ left, Returns (vprintfmt textPutch 2 fmt) ⟨ap, []⟩ () ⟨left, text⟩

/-- What `vsnprintf` leaves in the buffer. -/
def bounded (str text : List UInt8) : List UInt8 :=
  text.take (str.length - 1) ++ 0 :: str.drop (min text.length (str.length - 1) + 1)

/-- The format has a text, of which the buffer gets as much as fits it with a NUL behind. Where its
length is an `int`, it is the value returned. -/
def Formats (str fmt : List UInt8) (ap : List Arg) : Prop :=
  ∃ text ret, Prints fmt ap text ∧ vsnprintf (some str) fmt ap = some (ret, some (bounded str text)) ∧
    (text.length < 2 ^ 31 → ret = text.length)

theorem terminated (buffered : Buffered str b text) (positive : 0 < str.length) :
    Returns (do let b ← gets fun b => b; storeByte b.buf 0 : Call Sprintbuf Unit) b () { b with str := bounded str text } := by
  have inside : b.buf < b.str.length := by
    rw [buffered.length, buffered.place]
    omega
  have full : (text.take (str.length - 1)).length = min text.length (str.length - 1) := by
    rw [List.length_take, Nat.min_comm]
  have below : (text.take (str.length - 1)).length < str.length := by omega
  have behind := set_behind below 0
  rw [full] at behind
  have same : b.str.set b.buf 0 = bounded str text := by
    rw [buffered.written, buffered.place, behind, bounded, List.append_assoc, List.singleton_append]
  rw [← same]
  exact returns_bind.mpr ⟨b, b, rfl, storeByte_returns inside 0⟩

theorem vsnprintf_formats (positive : 0 < str.length) (prints : Prints fmt ap text) :
    vsnprintf (some str) fmt ap = some (int32 text.length, some (bounded str text)) := by
  obtain ⟨left, ran⟩ := prints
  have empty : Buffered str ⟨str, 0, str.length - 1, 0⟩ [] := ⟨by simp, by simp, rfl, by simp [int32]⟩
  have begins : Alike (Buffered str) ⟨ap, ⟨str, 0, str.length - 1, 0⟩⟩ ⟨ap, []⟩ := ⟨rfl, empty⟩
  obtain ⟨⟨left', b⟩, ran', -, buffered⟩ := (vprintfmt_simulates (sprintputch_simulates str) 2 fmt).transfers begins ran
  have printed : Returns (within (fun b => ⟨ap, b⟩) (fun frame _ => frame.putdat) (vprintfmt sprintputch 2 fmt))
      ⟨str, 0, str.length - 1, 0⟩ () b := returns_within.mpr ⟨_, ran', rfl⟩
  have whole : Returns (within (fun b => ⟨ap, b⟩) (fun frame _ => frame.putdat) (vprintfmt sprintputch 2 fmt) >>= fun _ => do
      let b ← gets fun b => b
      storeByte b.buf 0) ⟨str, 0, str.length - 1, 0⟩ () { b with str := bounded str text } :=
    returns_bind.mpr ⟨(), b, printed, terminated buffered positive⟩
  rw [Returns] at whole
  rw [vsnprintf, if_neg (by omega)]
  simp only [whole]
  rw [buffered.counted]

theorem textPutch_total (ch : Int) (text : List UInt8) : ∃ after, textPutch ch text = some (.ok (), after) := ⟨_, rfl⟩

/-- With arguments that fit the format, `vsnprintf` formats it if and only if no `%e` takes the
least `int`. -/
theorem formats_iff (positive : 0 < str.length) (fits : Fits (demands none fmt) ap) :
    Formats str fmt ap ↔ ¬ TakesLeast (demands none fmt) ap := by
  obtain ⟨stops, returns⟩ := vprintfmt_ends textPutch_total fits
  constructor
  · rintro ⟨text, ret, ⟨left, ran⟩, -⟩ least
    rw [Returns, stops least ⟨ap, []⟩ rfl] at ran
    cases ran
  · intro spared
    obtain ⟨left, leaves⟩ := returns spared
    obtain ⟨_, ⟨_, text⟩, ran, -, -⟩ := leaves ⟨ap, []⟩ rfl
    have prints : Prints fmt ap text := ⟨_, ran⟩
    refine ⟨text, _, prints, vsnprintf_formats positive prints, fun short => ?_⟩
    exact Int.bmod_eq_of_le (by omega) (by omega)

/-! ## Numerals -/

/-- The digits of a number, the most significant one first. -/
def digitsOf (base num : Nat) : List UInt8 := (Nat.toDigits base num).map fun c => UInt8.ofNat c.toNat

theorem digitChars_getElem {d : Nat} (small : d < 16) : digitChars[d]? = some (UInt8.ofNat (Nat.digitChar d).toNat) := by
  interval_cases d <;> rfl

variable {width : Int} {base num digits : Nat} {padc : UInt8}

theorem byteOf_byte (ch : UInt8) : byteOf ch.toNat = ch := by
  have small := ch.toNat_lt
  apply UInt8.toNat_inj.mp
  have same : ((ch.toNat : Int) % 256).toNat = ch.toNat := by omega
  rw [byteOf, same, UInt8.ofNat_toNat]

theorem put_text (ch : UInt8) : Returns (put textPutch ch.toNat) ⟨ap, text⟩ () ⟨ap, text ++ [ch]⟩ := by
  have stored : Returns (put textPutch ch.toNat) ⟨ap, text⟩ () ⟨ap, text ++ [byteOf ch.toNat]⟩ := rfl
  rwa [byteOf_byte] at stored

/-- A number without a width is printed as its digits. -/
theorem printnum_digits (two : 2 ≤ base) (sixteen : base ≤ 16) (some_digits : 0 < digits) (small : num < base ^ digits)
    (unpadded : width ≤ 0) (far : digits - 2 ^ 30 ≤ width) :
    Returns (printnum textPutch num base width padc digits) ⟨ap, text⟩ () ⟨ap, text ++ digitsOf base num⟩ := by
  induction digits generalizing num width with
  | zero => cases some_digits
  | succ digits ih =>
    have narrower : int32 (width - 1) = width - 1 := Int.bmod_eq_of_le (by omega) (by omega)
    have digit := digitChars_getElem ((Nat.mod_lt num (by omega)).trans_le sixteen)
    rw [printnum, digit, narrower, digitsOf, Nat.toDigits_eq_if two]
    by_cases more : base ≤ num
    · have fewer : num / base < base ^ digits := Nat.div_lt_of_lt_mul (by rwa [Nat.pow_succ, Nat.mul_comm] at small)
      have left : 0 < digits := by
        by_contra none
        rw [Nat.eq_zero_of_not_pos none, Nat.pow_zero] at fewer
        have := Nat.div_pos more (by omega)
        omega
      have before : Returns (printnum textPutch (num / base) base (width - 1) padc digits) ⟨ap, text⟩ () _ :=
        ih left fewer (by omega) (by omega)
      rw [if_pos more, if_neg (by omega), List.map_append, ← List.append_assoc]
      exact returns_bind.mpr ⟨(), _, before, put_text _⟩
    · have none : (width - 1).toNat = 0 := by omega
      rw [if_neg more, if_pos (by omega), none, Nat.mod_eq_of_lt (by omega)]
      exact returns_bind.mpr ⟨(), _, rfl, put_text _⟩

/-- The numeral of an argument for a conversion. -/
def numeral (conversion : Case) (arg : Arg) : List UInt8 :=
  match conversion with
  | .d => (if arg.signed < 0 then ['-'.toUInt8] else []) ++ digitsOf 10 arg.signed.natAbs
  | .o => digitsOf 8 arg.unsigned
  | .x => digitsOf 16 arg.unsigned
  | _ => digitsOf 10 arg.unsigned

variable {flags : Flags} {printfmt : List UInt8 → Call (Frame (List UInt8)) Unit}

theorem number_text (two : 2 ≤ base) (sixteen : base ≤ 16) (small : num < 2 ^ 64) (unset : flags.width = 0 ∨ flags.width = -1) :
    Returns (number textPutch flags num base) ⟨ap, text⟩ () ⟨ap, text ++ digitsOf base num⟩ :=
  printnum_digits two sixteen (by decide) (small.trans_le (Nat.pow_le_pow_left two 64)) (by omega) (by omega)

/-- An integer conversion without a width prints the numeral of its argument. -/
theorem conversion_text {arg : Arg} (integer : caseOf (byteAt fmt i) ∈ [Case.d, .u, .o, .x]) (long : Long flags.lflag arg)
    (unset : flags.width = 0 ∨ flags.width = -1) :
    Returns (reswitch textPutch printfmt fmt (steps + 1) i flags) ⟨arg :: ap, text⟩ (i + 1)
      ⟨ap, text ++ numeral (caseOf (byteAt fmt i)) arg⟩ := by
  have prints (base : Nat) (two : 2 ≤ base) (sixteen : base ≤ 16) :
      Returns (getuint flags.lflag >>= fun num => number textPutch flags num base >>= fun _ => Pure.pure (i + 1)) ⟨arg :: ap, text⟩
        (i + 1) ⟨ap, text ++ digitsOf base arg.unsigned⟩ :=
    returns_bind.mpr ⟨_, _, getuint_returns long ap text, returns_bind.mpr ⟨(), _, number_text two sixteen (unsigned_lt arg) unset, rfl⟩⟩
  rw [reswitch]
  simp only [List.mem_cons, List.not_mem_nil, or_false] at integer
  rcases integer with case | case | case | case <;> rw [case]
  · have digits (text : List UInt8) : Returns (number textPutch flags arg.signed.natAbs 10) ⟨ap, text⟩ ()
        ⟨ap, text ++ digitsOf 10 arg.signed.natAbs⟩ := number_text (by decide) (by decide) (natAbs_signed_lt arg) unset
    refine returns_bind.mpr ⟨_, _, getint_returns long ap text, ?_⟩
    have sign : Returns (onlyIf (arg.signed < 0) (put textPutch '-'.toNat)) ⟨ap, text⟩ ()
        ⟨ap, text ++ if arg.signed < 0 then ['-'.toUInt8] else []⟩ := by
      by_cases negative : arg.signed < 0
      · simp only [negative, ↓reduceIte]
        exact put_text '-'.toUInt8
      · simp only [negative, ↓reduceIte, List.append_nil]
        rfl
    rw [numeral, ← List.append_assoc]
    exact returns_bind.mpr ⟨(), _, sign, returns_bind.mpr ⟨(), _, digits _, rfl⟩⟩
  · exact prints 10 (by decide) (by decide)
  · exact prints 8 (by decide) (by decide)
  · exact prints 16 (by decide) (by decide)

/-- What leaves a directive without a width; behind a dot, numbers are a precision. -/
def Unset : Bool → List UInt8 → Prop
  | _, [] => True
  | dotted, flag :: flags =>
    caseOf flag ∈ [Case.minus, .zero, .hash, .l] ∧ Unset dotted flags ∨ caseOf flag = .dot ∧ Unset true flags ∨
      dotted = true ∧ caseOf flag ∈ [Case.digit, .star] ∧ Unset true flags

def lflagOf (flags : List UInt8) : Nat := flags.countP fun flag => caseOf flag = .l

/-- How many arguments are taken for precisions. -/
def starsOf (flags : List UInt8) : Nat := flags.countP fun flag => caseOf flag = .star

theorem byteAt_drop {ch : UInt8} {rest : List UInt8} (here : fmt.drop i = ch :: rest) : byteAt fmt i = ch ∧ fmt.drop (i + 1) = rest := by
  constructor
  · have first := congrArg (fun bytes => bytes[0]?) here
    simp only [List.getElem?_drop, Nat.add_zero, List.getElem?_cons_zero] at first
    rw [byteAt, first, Option.getD_some]
  · rw [← List.drop_drop, here, List.drop_one, List.tail_cons]

/-- The loop over a number ends at the conversion at the latest. -/
theorem widthLoop_run {options rest : List UInt8} {ch : UInt8} (here : fmt.drop i = options ++ ch :: rest)
    (ends : ch.toNat < '0'.toNat || '9'.toNat < ch.toNat) (enough : options.length < steps) (first : UInt8) (precision : Int) :
    ∃ run more value, options = run ++ more ∧ (∀ digit ∈ run, caseOf digit = .zero ∨ caseOf digit = .digit) ∧
      widthLoop fmt steps i first precision = some (value, i + run.length) := by
  induction options generalizing i steps first precision with
  | nil =>
    obtain ⟨steps, rfl⟩ : ∃ more, steps = more + 1 := ⟨steps - 1, by simp at enough; omega⟩
    obtain ⟨same, -⟩ := byteAt_drop here
    refine ⟨[], [], int32 (precision * 10 + first.toNat - '0'.toNat), rfl, List.forall_mem_nil _, ?_⟩
    rw [widthLoop, same]
    exact if_pos ends
  | cons flag options ih =>
    obtain ⟨steps, rfl⟩ : ∃ more, steps = more + 1 := ⟨steps - 1, by simp at enough; omega⟩
    obtain ⟨same, next⟩ := byteAt_drop here
    rw [widthLoop, same]
    by_cases digit : flag.toNat < '0'.toNat || '9'.toNat < flag.toNat
    · exact ⟨[], flag :: options, _, rfl, List.forall_mem_nil _, if_pos digit⟩
    · obtain ⟨run, more, value, split, digits, ran⟩ := ih next (by simpa using enough) flag _
      refine ⟨flag :: run, more, value, congrArg (flag :: ·) split, List.forall_mem_cons.mpr ⟨?_, digits⟩, ?_⟩
      · simp only [Bool.or_eq_true, decide_eq_true_eq, not_or, Nat.not_lt] at digit
        exact case_of_digit digit.1 digit.2
      · rw [List.length_cons, Nat.add_comm run.length, ← Nat.add_assoc, ← ran]
        exact if_neg digit

/-- The digits of a precision are no other options. -/
theorem Unset.behind {run more : List UInt8} (without : Unset true (run ++ more))
    (digits : ∀ digit ∈ run, caseOf digit = .zero ∨ caseOf digit = .digit) :
    Unset true more ∧ lflagOf (run ++ more) = lflagOf more ∧ starsOf (run ++ more) = starsOf more := by
  induction run with
  | nil => exact ⟨without, rfl, rfl⟩
  | cons digit run ih =>
    obtain ⟨here, later⟩ := List.forall_mem_cons.mp digits
    have rest : Unset true (run ++ more) := by
      rcases without with ⟨-, rest⟩ | ⟨-, rest⟩ | ⟨-, -, rest⟩ <;> exact rest
    obtain ⟨unset, longs, stars⟩ := ih rest later
    rw [List.cons_append, lflagOf, starsOf, List.countP_cons, List.countP_cons]
    rcases here with case | case <;> rw [case]
    · exact ⟨unset, longs, stars⟩
    · exact ⟨unset, longs, stars⟩

/-- Behind a dot a number is no width. -/
theorem processPrecision_width (zero : flags.width = 0) (precision : Int) :
    (processPrecision { flags with precision := precision }).width = 0 := by
  rw [processPrecision, if_neg (by dsimp only; omega)]
  exact zero

theorem conversion_ends {ch : UInt8} (integer : caseOf ch ∈ [Case.d, .u, .o, .x]) : ch.toNat < '0'.toNat || '9'.toNat < ch.toNat := by
  by_contra digit
  simp only [Bool.or_eq_true, decide_eq_true_eq, not_or, Nat.not_lt] at digit
  rcases case_of_digit digit.1 digit.2 with case | case
  · exact absurd (case ▸ integer) (by decide)
  · exact absurd (case ▸ integer) (by decide)

/-- The options go into the state of the switch one by one. -/
theorem flags_text {arg : Arg} {options rest : List UInt8} {ch : UInt8} {dotted : Bool} {numbers : List (BitVec 32)}
    (here : fmt.drop i = options ++ ch :: rest) (without : Unset dotted options) (integer : caseOf ch ∈ [Case.d, .u, .o, .x])
    (enough : options.length < steps) (taken : numbers.length = starsOf options) (long : Long (flags.lflag + lflagOf options) arg)
    (unset : flags.width = if dotted then 0 else -1) :
    Returns (reswitch textPutch printfmt fmt steps i flags) ⟨numbers.map .int ++ arg :: ap, text⟩ (i + options.length + 1)
      ⟨ap, text ++ numeral (caseOf ch) arg⟩ := by
  induction steps generalizing i flags options dotted numbers with
  | zero => cases enough
  | succ steps ih =>
    cases options with
    | nil =>
      obtain rfl : numbers = [] := List.length_eq_zero_iff.mp taken
      obtain ⟨same, -⟩ := byteAt_drop here
      rw [← same] at integer ⊢
      refine conversion_text integer long ?_
      cases dotted with
      | true => exact .inl unset
      | false => exact .inr unset
    | cons flag options =>
      obtain ⟨same, behind_flag⟩ := byteAt_drop here
      have next : fmt.drop (i + 1) = options ++ ch :: rest := behind_flag
      have enough' : options.length < steps := by simpa using enough
      have place : i + (flag :: options).length + 1 = i + 1 + options.length + 1 := by
        rw [List.length_cons]
        omega
      rw [reswitch, same, place]
      rw [lflagOf, List.countP_cons] at long
      rw [starsOf, List.countP_cons] at taken
      rcases without with ⟨case, without⟩ | ⟨case, without⟩ | ⟨behind, case, without⟩
      · simp only [List.mem_cons, List.not_mem_nil, or_false] at case
        rcases case with case | case | case | case <;> rw [case] at long taken ⊢
        · exact ih next without enough' taken long unset
        · exact ih next without enough' taken long unset
        · exact ih next without enough' taken long unset
        · exact ih next without enough' taken (by rw [lflagOf]; convert long using 1; simp; omega) unset
      · rw [case] at long taken ⊢
        change Returns (reswitch textPutch printfmt fmt steps (i + 1) (if flags.width < 0 then { flags with width := 0 } else flags)) _ _ _
        generalize changed : (if flags.width < 0 then { flags with width := 0 } else flags) = flags'
        have zero : flags'.width = 0 ∧ flags'.lflag = flags.lflag := by
          rw [← changed]
          cases dotted with
          | true =>
            have zero : flags.width = 0 := unset
            rw [if_neg (by omega)]
            exact ⟨zero, rfl⟩
          | false =>
            have none : flags.width = -1 := unset
            rw [if_pos (by omega)]
            exact ⟨rfl, rfl⟩
        rw [← zero.2] at long
        exact ih next without enough' taken long zero.1
      · simp only [List.mem_cons, List.not_mem_nil, or_false] at case
        rw [behind] at unset
        have zero (precision : Int) : (processPrecision { flags with precision := precision }).width = 0 := processPrecision_width unset precision
        have kept (precision : Int) : (processPrecision { flags with precision := precision }).lflag = flags.lflag := processPrecision_lflag _
        rcases case with case | case <;> rw [case] at long taken ⊢
        · have whole : options.length < fmt.length + 1 := by
            have length := congrArg List.length next
            simp only [List.length_drop, List.length_append, List.length_cons] at length
            omega
          obtain ⟨run, more, value, rfl, digits, ran⟩ := widthLoop_run next (conversion_ends integer) whole flag 0
          obtain ⟨without, longs, stars⟩ := Unset.behind without digits
          have later : fmt.drop (i + 1 + run.length) = more ++ ch :: rest := by
            rw [← List.drop_drop, next, List.append_assoc, List.drop_left]
          have place : i + 1 + (run ++ more).length + 1 = i + 1 + run.length + more.length + 1 := by
            rw [List.length_append, ← Nat.add_assoc (i + 1)]
          rw [ran, place]
          rw [List.length_append] at enough'
          refine ih later without (by omega) (taken.trans stars) ?_ (zero value)
          rw [kept, ← longs]
          exact long
        · cases numbers with
          | nil => cases taken
          | cons number numbers =>
            have taken : numbers.length = starsOf options := Nat.succ.inj taken
            refine returns_bind.mpr ⟨number, ⟨numbers.map Arg.int ++ arg :: ap, text⟩, rfl, ih next without enough' taken ?_ (zero _)⟩
            rw [kept]
            exact long

/-- Wherever the loop gets to an integer directive without a width, it prints the numeral of the
argument and goes on behind the directive. -/
def NumeralsExact : Prop :=
  ∀ (printfmt : List UInt8 → Call (Frame (List UInt8)) Unit) (fmt : List UInt8) (steps i : Nat) (options rest : List UInt8) (ch : UInt8),
    fmt.drop i = '%'.toUInt8 :: (options ++ ch :: rest) → Unset false options → caseOf ch ∈ [Case.d, .u, .o, .x] →
      ∀ (numbers : List (BitVec 32)) (arg : Arg) (ap : List Arg) (text : List UInt8), numbers.length = starsOf options →
        Long (lflagOf options) arg →
          formatLoop textPutch printfmt fmt (steps + 1) i ⟨numbers.map .int ++ arg :: ap, text⟩ =
            formatLoop textPutch printfmt fmt steps (i + options.length + 2) ⟨ap, text ++ numeral (caseOf ch) arg⟩

theorem numerals_exact : NumeralsExact := by
  intro printfmt fmt steps i options rest ch here without integer numbers arg ap text taken long
  obtain ⟨percent, next⟩ := byteAt_drop here
  have enough : options.length < fmt.length + 1 := by
    have length := congrArg List.length here
    simp only [List.length_drop, List.length_cons, List.length_append] at length
    omega
  have directive : Returns (reswitch textPutch printfmt fmt (fmt.length + 1) (i + 1) noFlags) ⟨numbers.map .int ++ arg :: ap, text⟩ _ _ :=
    flags_text next without integer enough taken (by simpa [noFlags] using long) rfl
  rw [formatLoop]
  simp only [percent, ne_eq, not_true_eq_false, ↓reduceIte]
  rw [Returns] at directive
  simp only [bind, directive]
  congr 1
  omega

/-- Integer conversions print numerals, and with arguments that fit the format `vsnprintf` puts as
much of its text into the buffer as there is room for, if and only if no `%e` takes the least `int`. -/
theorem vsnprintf_formats_iff (positive : 0 < str.length) (fits : Fits (demands none fmt) ap) :
    NumeralsExact ∧ (Formats str fmt ap ↔ ¬ TakesLeast (demands none fmt) ap) :=
  ⟨numerals_exact, formats_iff positive fits⟩

theorem vsnprintf_formats_message :
    Formats (List.replicate 8 0) (bytes "%-5ld%e%") [.long (-42), .int 4] := by
  have asked : demands none (bytes "%-5ld%e%") = [⟨.d, 1⟩, ⟨.e, 0⟩] := rfl
  refine (vsnprintf_formats_iff (by decide) ?_).2.mpr ?_ <;> rw [asked]
  · exact ⟨rfl, rfl, trivial⟩
  · simp only [TakesLeast, reduceCtorEq, and_false, false_or, or_false, true_and, Arg.int.injEq]
    decide

/-- The least `int` is an argument for `%e`, and there is no message for it. -/
theorem least_error_stops :
    Fits (demands none (bytes "%e")) [.int least] ∧ ¬ Formats (List.replicate 16 0) (bytes "%e") [.int least] := by
  have asked : demands none (bytes "%e") = [⟨.e, 0⟩] := rfl
  have fits : Fits (demands none (bytes "%e")) [.int least] := ⟨rfl, trivial⟩
  refine ⟨fits, fun formats => (formats_iff (by decide) fits).mp formats ?_⟩
  rw [asked]
  exact .inl ⟨rfl, rfl⟩

end Ucore.Printfmt
