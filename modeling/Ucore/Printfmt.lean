import Ucore.Call

/-! Formatted output, `libs/printfmt.c`. A format is the bytes in front of its NUL, and a
pointer into it is an index; behind the NUL there is nothing to be read. Arguments come in
the order that `va_arg` takes them; the two long types are of the same 64 bits. Numbers of
type `int` wrap. The system stops at a read outside an object, and at an argument of
another type than the one asked for. -/
namespace Ucore.Printfmt
open Call

/-- An `int`. -/
def int32 (n : Int) : Int := n.bmod (2 ^ 32)

def eInval : Int := 3
def maxerror : Int := 24

inductive Arg where
  | int (value : BitVec 32)
  | long (value : BitVec 64)
  | pointer (value : BitVec 64)
  /-- The bytes of a string; `none` is a null pointer. -/
  | string (value : Option (List UInt8))
  deriving DecidableEq

/-- What is left of the arguments, and what `putdat` leads to. -/
structure Frame (σ : Type) where
  ap : List Arg
  putdat : σ

def bytes (text : String) : List UInt8 := text.toList.map fun c => UInt8.ofNat c.toNat

def errorString : List (Option String) := [
  none, some "unspecified error", some "bad process", some "invalid parameter", some "out of memory",
  some "out of processes", some "segmentation fault", none, some "invalid elf file", some "process is killed",
  some "panic failure", none, none, some "no such device", some "device not available",
  some "device/file is busy", some "no such file or directory", some "is a directory", some "not a directory",
  some "cross device link", some "unimplemented feature", some "illegal seek", some "too many files are open",
  some "file or directory already exists", some "directory is not empty"]

/-! ## Arguments -/

variable {σ : Type}

def vaArg : Call (Frame σ) Arg := do
  let frame ← gets fun frame => frame
  match frame.ap with
  | [] => stop
  | arg :: ap =>
    modify fun frame => { frame with ap := ap }
    return arg

def vaInt : Call (Frame σ) (BitVec 32) := do
  match ← vaArg with
  | .int value => return value
  | _ => stop

def vaLong : Call (Frame σ) (BitVec 64) := do
  match ← vaArg with
  | .long value => return value
  | _ => stop

def vaPointer : Call (Frame σ) (BitVec 64) := do
  match ← vaArg with
  | .pointer value => return value
  | _ => stop

def vaString : Call (Frame σ) (Option (List UInt8)) := do
  match ← vaArg with
  | .string value => return value
  | _ => stop

/-- An unsigned number of 64 bits. -/
def getuint (lflag : Nat) : Call (Frame σ) Nat := do
  if 1 ≤ lflag then return (← vaLong).toNat
  else return (← vaInt).toNat

def getint (lflag : Nat) : Call (Frame σ) Int := do
  if 1 ≤ lflag then return (← vaLong).toInt
  else return (← vaInt).toInt

/-! ## Printing -/

section
variable (putch : Int → Call σ Unit)

def put (ch : Int) : Call (Frame σ) Unit :=
  within Frame.putdat (fun putdat frame => { frame with putdat := putdat }) (putch ch)

/-- `count` times the same character. -/
def putMany (ch : Int) : Nat → Call (Frame σ) Unit
  | 0 => return ()
  | count + 1 => do
    put putch ch
    putMany ch count

def digitChars : List UInt8 := bytes "0123456789abcdef"

/-- `printnum` of a number of `digits` digits at most. -/
def printnum (num base : Nat) (width : Int) (padc : UInt8) : Nat → Call (Frame σ) Unit
  | 0 => stop
  | digits + 1 => do
    (if base ≤ num then printnum (num / base) base (int32 (width - 1)) padc digits
      else putMany putch padc.toNat (int32 (width - 1)).toNat)
    match digitChars[num % base]? with
    | none => stop
    | some digit => put putch digit.toNat

/-- The loop over a string; the width left behind it. -/
def putString (altflag : Bool) : List UInt8 → Int → Int → Call (Frame σ) Int
  | [], _, width => return width
  | ch :: p, precision, width => do
    if ch = 0 then return width
    else if precision < 0 || 0 ≤ precision - 1 then
      put putch (if altflag && (ch.toNat < ' '.toNat || '~'.toNat < ch.toNat) then '?'.toNat else ch.toNat)
      putString altflag p (if precision < 0 then precision else precision - 1) (int32 (width - 1))
    else return width

def strnlen (p : List UInt8) (precision : Int) : Nat :=
  let len := (p.takeWhile fun ch => ch ≠ 0).length
  if precision < 0 then len else min len precision.toNat

end

/-! ## The format -/

/-- `*fmt`. -/
def byteAt (fmt : List UInt8) (i : Nat) : UInt8 := (fmt[i]?).getD 0

/-- The cases of the switch. -/
inductive Case where
  | minus | zero | digit | star | dot | hash | l | c | e | s | d | u | o | p | x | percent | other
  deriving DecidableEq

def caseOf (ch : UInt8) : Case :=
  match Char.ofNat ch.toNat with
  | '-' => .minus
  | '0' => .zero
  | '1' | '2' | '3' | '4' | '5' | '6' | '7' | '8' | '9' => .digit
  | '*' => .star
  | '.' => .dot
  | '#' => .hash
  | 'l' => .l
  | 'c' => .c
  | 'e' => .e
  | 's' => .s
  | 'd' => .d
  | 'u' => .u
  | 'o' => .o
  | 'p' => .p
  | 'x' => .x
  | '%' => .percent
  | _ => .other

structure Flags where
  padc : UInt8
  width : Int
  precision : Int
  lflag : Nat
  altflag : Bool

def noFlags : Flags := ⟨' '.toUInt8, -1, -1, 0, false⟩

def processPrecision (flags : Flags) : Flags :=
  if flags.width < 0 then { flags with width := flags.precision, precision := -1 } else flags

/-- The loop over the digits of a width from `ch` on, with `fmt` behind it; the number and where it ends. -/
def widthLoop (fmt : List UInt8) : Nat → Nat → UInt8 → Int → Option (Int × Nat)
  | 0, _, _, _ => none
  | steps + 1, i, ch, precision =>
    let precision := int32 (precision * 10 + ch.toNat - '0'.toNat)
    let ch := byteAt fmt i
    if ch.toNat < '0'.toNat || '9'.toNat < ch.toNat then some (precision, i)
    else widthLoop fmt steps (i + 1) ch precision

/-- `for (fmt --; fmt[-1] != '%'; fmt --)`, behind its first step. -/
def backUp (fmt : List UInt8) : Nat → Option Nat
  | 0 => none
  | i + 1 => if byteAt fmt i = '%'.toUInt8 then some (i + 1) else backUp fmt i

section
variable (putch : Int → Call σ Unit)

/-- `case 's'`. -/
def stringCase (flags : Flags) : Call (Frame σ) Unit := do
  let p := ((← vaString).getD (bytes "(null)"))
  let left := int32 (flags.width - strnlen p flags.precision)
  if 0 < flags.width && flags.padc ≠ '-'.toUInt8 then
    putMany putch flags.padc.toNat left.toNat
    let width ← putString putch flags.altflag p flags.precision (min left 0)
    putMany putch ' '.toNat width.toNat
  else
    let width ← putString putch flags.altflag p flags.precision flags.width
    putMany putch ' '.toNat width.toNat

/-- A call of `printfmt` with arguments of its own. -/
def nested (printfmt : Call (Frame σ) Unit) (ap : List Arg) : Call (Frame σ) Unit :=
  within (fun frame => { frame with ap := ap }) (fun inner frame => { frame with putdat := inner.putdat }) printfmt

/-- `err` behind its change of sign; the least `int` is its own negation. -/
def absErr (value : BitVec 32) : Int := if value.toInt < 0 then int32 (-value.toInt) else value.toInt

def errorMessage (printfmt : List UInt8 → Call (Frame σ) Unit) (err : Int) : Call (Frame σ) Unit :=
  if maxerror < err then nested (printfmt (bytes "error %d")) [.int (BitVec.ofInt 32 err)]
  else if err < 0 then stop
  else
    match errorString[err.toNat]? with
    | none => stop
    | some none => nested (printfmt (bytes "error %d")) [.int (BitVec.ofInt 32 err)]
    | some (some p) => nested (printfmt (bytes "%s")) [.string (some (bytes p))]

/-- `case 'e'`. -/
def errorCase (printfmt : List UInt8 → Call (Frame σ) Unit) : Call (Frame σ) Unit := do
  errorMessage printfmt (absErr (← vaInt))

/-- `number:`, at most 64 digits. -/
def number (flags : Flags) (num base : Nat) : Call (Frame σ) Unit :=
  printnum putch num base flags.width flags.padc 64

/-- From `reswitch:` to the end of the directive; where the format goes on. -/
def reswitch (printfmt : List UInt8 → Call (Frame σ) Unit) (fmt : List UInt8) : Nat → Nat → Flags → Call (Frame σ) Nat
  | 0, _, _ => stop
  | steps + 1, i, flags => do
    let ch := byteAt fmt i
    match caseOf ch with
    | .minus => reswitch printfmt fmt steps (i + 1) { flags with padc := '-'.toUInt8 }
    | .zero => reswitch printfmt fmt steps (i + 1) { flags with padc := '0'.toUInt8 }
    | .digit =>
      match widthLoop fmt (fmt.length + 1) (i + 1) ch 0 with
      | none => stop
      | some (precision, i) => reswitch printfmt fmt steps i (processPrecision { flags with precision := precision })
    | .star =>
      let precision ← vaInt
      reswitch printfmt fmt steps (i + 1) (processPrecision { flags with precision := precision.toInt })
    | .dot => reswitch printfmt fmt steps (i + 1) (if flags.width < 0 then { flags with width := 0 } else flags)
    | .hash => reswitch printfmt fmt steps (i + 1) { flags with altflag := true }
    | .l => reswitch printfmt fmt steps (i + 1) { flags with lflag := flags.lflag + 1 }
    | .c =>
      put putch (← vaInt).toInt
      return i + 1
    | .e =>
      errorCase printfmt
      return i + 1
    | .s =>
      stringCase putch flags
      return i + 1
    | .d =>
      let num ← getint flags.lflag
      onlyIf (num < 0) (put putch '-'.toNat)
      number putch flags num.natAbs 10
      return i + 1
    | .u =>
      number putch flags (← getuint flags.lflag) 10
      return i + 1
    | .o =>
      number putch flags (← getuint flags.lflag) 8
      return i + 1
    | .p =>
      put putch '0'.toNat
      put putch 'x'.toNat
      number putch flags (← vaPointer).toNat 16
      return i + 1
    | .x =>
      number putch flags (← getuint flags.lflag) 16
      return i + 1
    | .percent =>
      put putch ch.toNat
      return i + 1
    | .other =>
      put putch '%'.toNat
      match backUp fmt i with
      | none => stop
      | some i => return i

/-- The loop over the format, which goes around once for each of its bytes at most. -/
def formatLoop (printfmt : List UInt8 → Call (Frame σ) Unit) (fmt : List UInt8) : Nat → Nat → Call (Frame σ) Unit
  | 0, _ => stop
  | steps + 1, i => do
    let ch := byteAt fmt i
    if ch ≠ '%'.toUInt8 then
      if ch = 0 then return ()
      else
        put putch ch.toNat
        formatLoop printfmt fmt steps (i + 1)
    else
      let next ← reswitch putch printfmt fmt (fmt.length + 1) (i + 1) noFlags
      formatLoop printfmt fmt steps next

/-- `vprintfmt` with calls of `printfmt` down to a depth. -/
def vprintfmt : Nat → List UInt8 → Call (Frame σ) Unit
  | 0, _ => stop
  | depth + 1, fmt => formatLoop putch (vprintfmt depth) fmt (fmt.length + 1) 0

end

/-! ## Into a buffer -/

/-- `struct sprintbuf` and the buffer it is in, `buf` and `ebuf` as indices. -/
structure Sprintbuf where
  str : List UInt8
  buf : Nat
  ebuf : Nat
  cnt : Int

/-- A byte may be written inside the buffer only. -/
def storeByte (i : Nat) (byte : UInt8) : Call Sprintbuf Unit := do
  let b ← gets fun b => b
  assert (i < b.str.length)
  modify fun b => { b with str := b.str.set i byte }

def byteOf (ch : Int) : UInt8 := UInt8.ofNat (ch % 256).toNat

def sprintputch (ch : Int) : Call Sprintbuf Unit := do
  modify fun b => { b with cnt := int32 (b.cnt + 1) }
  let b ← gets fun b => b
  if b.buf < b.ebuf then
    storeByte b.buf (byteOf ch)
    modify fun b => { b with buf := b.buf + 1 }

/-- The `size` is the length of the buffer; the number of characters and the buffer behind the call. -/
def vsnprintf (str : Option (List UInt8)) (fmt : List UInt8) (ap : List Arg) : Option (Int × Option (List UInt8)) :=
  match str with
  | none => some (-eInval, none)
  | some str =>
    if str.length = 0 then some (-eInval, some str)
    else
      let print : Call Sprintbuf Unit := do
        within (fun b => ⟨ap, b⟩) (fun frame _ => frame.putdat) (vprintfmt sprintputch 2 fmt)
        let b ← gets fun b => b
        storeByte b.buf 0
      match print ⟨str, 0, str.length - 1, 0⟩ with
      | some (.ok (), b) => some (b.cnt, some b.str)
      | _ => none

end Ucore.Printfmt
