import Ucore.Printfmt

/-! The command line of the kernel monitor, `kern/debug/kmonitor.c`: a line is split into words
where it stands, and its first word is looked up among the commands. A pointer into the line
is an index. The system stops at an access outside of the line or of `argv`, and where a
pointer is used that has not been stored. -/
namespace Ucore.Kmonitor
open Call
open Printfmt (bytes)

def maxargs : Nat := 16

def whitespace : List UInt8 := bytes " \t\n\r"

/-- The object that a line is in, the array of the words, and what has been printed. -/
structure Frame where
  buf : List UInt8
  argv : List (Option Nat)
  printed : List UInt8

def load (i : Nat) : Call Frame UInt8 := do
  let frame ← gets fun frame => frame
  match frame.buf[i]? with
  | none => stop
  | some ch => return ch

def store (i : Nat) (ch : UInt8) : Call Frame Unit := do
  let frame ← gets fun frame => frame
  assert (i < frame.buf.length)
  modify fun frame => { frame with buf := frame.buf.set i ch }

def loadArg (i : Nat) : Call Frame Nat := do
  let frame ← gets fun frame => frame
  match frame.argv[i]? with
  | some (some buf) => return buf
  | _ => stop

def storeArg (i buf : Nat) : Call Frame Unit := do
  let frame ← gets fun frame => frame
  assert (i < frame.argv.length)
  modify fun frame => { frame with argv := frame.argv.set i (some buf) }

def cprintf (text : List UInt8) : Call Frame Unit := modify fun frame => { frame with printed := frame.printed ++ text }

/-- The bytes from `i` on, up to the first NUL. -/
def loadString (i : Nat) : Call Frame (List UInt8) := do
  let frame ← gets fun frame => frame
  assert ((frame.buf.drop i).contains 0)
  return (frame.buf.drop i).takeWhile fun ch => ch ≠ 0

/-- The first place of a character in a string. -/
def strchr : List UInt8 → UInt8 → Option Nat
  | [], _ => none
  | ch :: s, c => if ch = c then some 0 else (strchr s c).map (· + 1)

/-- A string of the monitor against the one at `i`. -/
def strcmp : List UInt8 → Nat → Call Frame Int
  | [], i => do return -(← load i).toNat
  | ch :: s, i => do
    let other ← load i
    if ch = other then strcmp s (i + 1) else return ch.toNat - other.toNat

/-! ## Splitting -/

def blank (ch : UInt8) : Bool := (strchr whitespace ch).isSome

/-- The loop over white space, to the place where it ends. -/
def blankLoop : Nat → Nat → Call Frame Nat
  | 0, _ => stop
  | steps + 1, buf => do
    let ch ← load buf
    if ch ≠ 0 && blank ch then
      store buf 0
      blankLoop steps (buf + 1)
    else return buf

/-- The loop over a word. -/
def wordLoop : Nat → Nat → Call Frame Nat
  | 0, _ => stop
  | steps + 1, buf => do
    let ch ← load buf
    if ch ≠ 0 && !blank ch then wordLoop steps (buf + 1) else return buf

/-- `cprintf("Too many arguments (max %d).\n", MAXARGS)`. -/
def tooMany : List UInt8 := bytes "Too many arguments (max 16).\n"

/-- The outer loop, with at most so many rounds of each loop; the number of words. -/
def parseLoop (steps : Nat) : Nat → Nat → Nat → Call Frame Nat
  | 0, _, _ => stop
  | rounds + 1, buf, argc => do
    let buf ← blankLoop steps buf
    let ch ← load buf
    if ch = 0 then return argc
    else
      onlyIf (argc = maxargs - 1) (cprintf tooMany)
      storeArg argc buf
      let buf ← wordLoop steps buf
      parseLoop steps rounds buf (argc + 1)

/-- No loop goes around more often than the object has bytes. -/
def parse (buf : Nat) : Call Frame Nat := do
  let steps ← gets fun frame => frame.buf.length + 1
  parseLoop steps steps buf 0

/-! ## Commands -/

inductive Func where
  | help
  | kerninfo
  | backtrace
  deriving DecidableEq

structure Command where
  name : List UInt8
  desc : List UInt8
  func : Func

def commands : List Command := [
  ⟨bytes "help", bytes "Display this list of commands.", .help⟩,
  ⟨bytes "kerninfo", bytes "Display information about the kernel.", .kerninfo⟩,
  ⟨bytes "backtrace", bytes "Print backtrace of stack frame.", .backtrace⟩]

/-- What `print_kerninfo` and `print_stackframe` print. -/
structure Debug where
  kerninfo : List UInt8
  stackframe : List UInt8

section
variable (debug : Debug)

/-- A command gets the number of its arguments and the place of the first one in `argv`, and looks at neither. -/
def Func.call (func : Func) (_argc _argv : Nat) : Call Frame Int := do
  match func with
  | .help => cprintf (commands.flatMap fun command => command.name ++ bytes " - " ++ command.desc ++ bytes "\n")
  | .kerninfo => cprintf debug.kerninfo
  | .backtrace => cprintf debug.stackframe
  return 0

/-- The loop over the commands. -/
def dispatch (argc : Nat) : List Command → Call Frame Int
  | [] => do
    let name ← loadString (← loadArg 0)
    cprintf (bytes "Unknown command '" ++ name ++ bytes "'\n")
    return 0
  | command :: rest => do
    let order ← strcmp command.name (← loadArg 0)
    if order = 0 then command.func.call debug (argc - 1) 1 else dispatch argc rest

/-- `argv` is a local variable, and nothing has been stored in it. -/
def runcmd (buf : Nat) : Call Frame Int := do
  modify fun frame => { frame with argv := List.replicate maxargs none }
  let argc ← parse buf
  if argc = 0 then return 0 else dispatch debug argc commands

end

end Ucore.Kmonitor
