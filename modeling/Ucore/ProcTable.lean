import Ucore.ListHeader

/-! The process table of `kern/process/proc.c` with its links: `proc_list`, the
pid hash, the family pointers and the counters of `get_pid`. A process is named
by the address of its `proc_struct`. -/
namespace Ucore.ProcTable
open Ucore.Ring ListHeader

def maxProcess : Nat := 4096
def maxPid : Int := 8192
def hashShift : Nat := 10

/-- The fields of a `proc_struct` that tell who it is and whose child it is. -/
structure ProcStruct where
  pid : Int
  parent : Option Nat
  cptr : Option Nat
  optr : Option Nat
  yptr : Option Nat

/-- A `hash_list` head or the `hash_link` of a process. -/
inductive HashNode where
  | bucket (index : Nat)
  | proc (addr : Nat)
  deriving DecidableEq

/-- In `listLink`, `none` is `proc_list` and `some proc` the `list_link` of a process. -/
structure Table where
  procs : Nat → ProcStruct
  listLink : Links (Option Nat)
  hashLink : Links HashNode
  nrProcess : Nat
  lastPid : Int
  nextSafe : Int

def setProc (k : Table) (addr : Nat) (proc : ProcStruct) : Table :=
  { k with procs := Function.update k.procs addr proc }

/-! ## Pids -/

/-- `get_pid` from `le = list_next(le)` on. A `goto repeat` starts again from the
head. `none` is a search that is not over after so many turns of its loop. -/
def scan (k : Table) : Nat → Int → Int → Option Nat → Option (Int × Int)
  | 0, _, _, _ => none
  | turns + 1, lastPid, nextSafe, le =>
    match listNext k.listLink le with
    | none => some (lastPid, nextSafe)
    | some proc =>
      let pid := (k.procs proc).pid
      if pid = lastPid then
        if nextSafe ≤ lastPid + 1 then
          scan k turns (if maxPid ≤ lastPid + 1 then 1 else lastPid + 1) maxPid none
        else scan k turns (lastPid + 1) nextSafe (some proc)
      else if lastPid < pid && pid < nextSafe then scan k turns lastPid pid (some proc)
      else scan k turns lastPid nextSafe (some proc)

/-- More turns than the search ever takes with `maxProcess` processes. -/
def scanTurns : Nat := (2 * 8192 + 1) * (maxProcess + 1)

/-- The search from the label `inside`. -/
def inside (k : Table) (lastPid : Int) : Option (Table × Int) :=
  (scan k scanTurns lastPid maxPid none).map fun (lastPid, nextSafe) =>
    ({ k with lastPid, nextSafe }, lastPid)

def getPid (k : Table) : Option (Table × Int) :=
  let lastPid := k.lastPid + 1
  if maxPid ≤ lastPid then inside k 1
  else if k.nextSafe ≤ lastPid then inside k lastPid
  else some ({ k with lastPid }, lastPid)

/-! ## Links -/

def hash32 (val : Int) (bits : Nat) : Nat :=
  (BitVec.ofInt 32 val * 0x9e370001#32).toNat / 2 ^ (32 - bits)

def pidHashfn (pid : Int) : Nat := hash32 pid hashShift

def hashProc (k : Table) (proc : Nat) : Table :=
  { k with hashLink := listAdd k.hashLink (.bucket (pidHashfn (k.procs proc).pid)) (.proc proc) }

def unhashProc (k : Table) (proc : Nat) : Table :=
  { k with hashLink := listDel k.hashLink (.proc proc) }

def setCptr (k : Table) (proc : Nat) (cptr : Option Nat) : Table :=
  setProc k proc { k.procs proc with cptr }

/-- `if (proc != NULL) proc->yptr = yptr`. -/
def setYptr (k : Table) (proc yptr : Option Nat) : Table :=
  match proc with
  | some addr => setProc k addr { k.procs addr with yptr }
  | none => k

def setOptr (k : Table) (proc : Nat) (optr : Option Nat) : Table :=
  setProc k proc { k.procs proc with optr }

/-- `none` is a process without a parent. -/
def setLinks (k : Table) (proc : Nat) : Option Table := do
  let k := { k with listLink := listAdd k.listLink none (some proc) }
  let k := setYptr k (some proc) none
  let parent ← (k.procs proc).parent
  let optr := (k.procs parent).cptr
  let k := setOptr k proc optr
  let k := setYptr k optr (some proc)
  let k := setCptr k parent (some proc)
  return { k with nrProcess := k.nrProcess + 1 }

def removeLinks (k : Table) (proc : Nat) : Option Table := do
  let k := { k with listLink := listDel k.listLink (some proc) }
  let k := setYptr k (k.procs proc).optr (k.procs proc).yptr
  let k ← match (k.procs proc).yptr with
    | some yptr => some (setOptr k yptr (k.procs proc).optr)
    | none => (k.procs proc).parent.map fun parent => setCptr k parent (k.procs proc).optr
  return { k with nrProcess := k.nrProcess - 1 }

/-! ## Creation and reaping -/

/-- `alloc_proc`, with the parent that `do_fork` sets. -/
def allocProc (k : Table) (proc parent : Nat) : Table :=
  setProc k proc ⟨-1, some parent, none, none, none⟩

/-- `do_fork` where nothing else fails: `kmalloc` gives `proc`. -/
def doFork (k : Table) (parent proc : Nat) : Option Table :=
  if maxProcess ≤ k.nrProcess then some k
  else
    let k := allocProc k proc parent
    (getPid k).bind fun (k, pid) =>
      setLinks (hashProc (setProc k proc { k.procs proc with pid }) proc) proc

/-- `do_wait` from `found` on. -/
def reap (k : Table) (proc : Nat) : Option Table := removeLinks (unhashProc k proc) proc

inductive Event where
  | fork (parent proc : Nat)
  | reap (proc : Nat)

/-- `none` is a search for a pid that does not end, or an access through no parent. -/
def step (k : Table) : Event → Option Table
  | .fork parent proc => doFork k parent proc
  | .reap proc => reap k proc

/-- `proc_init` before the first thread: `idleproc` is on no list. -/
def boot : Table where
  procs _ := ⟨0, none, none, none, none⟩
  listLink := ⟨id, id⟩
  hashLink := ⟨id, id⟩
  nrProcess := 1
  lastPid := maxPid
  nextSafe := maxPid

end Ucore.ProcTable
