import Ucore.DevKpuio
import Ucore.Runs

/-! The kpuio device as a system: any number of processes that write and read,
the controller, and the scheduler that orders them. The history beside the
state says what the processes have asked for: the submission being put
together, the submissions completed, and what the controller's last look at a
reader's own tasks was. -/
namespace Ucore.KpuProtocol
open KpuSpooling DevKpuio Runs

/-- A submission in progress: who sends it, its total length, its chunks. -/
structure Assembly where
  owner : Nat
  total : Int
  chunks : List (List UInt8)

def Assembly.bytes (assembly : Assembly) : List UInt8 := assembly.chunks.flatten

structure Submission where
  owner : Nat
  bytes : List UInt8

structure Traced where
  kpu : Kpuio
  inProgress : Option Assembly
  submitted : List Submission
  answers : Nat → Result

inductive Event where
  | write (pid : Nat) (chunk : Chunk) (sie : Bool) (mem : Option Grant)
  | read (pid : Nat) (sie : Bool) (mem : Option Grant) (junk : Int)
  | resume (pid : Nat)
  | controller (mem : Option Grant) (taskMem : Option (BitVec 32)) (created : Bool)
  | thread (k : Nat)

/-- A live user process outside the device. Pids up to 2 are kernel threads. -/
def user (kpu : Kpuio) (pid : Nat) : Bool :=
  2 < pid && (findProc kpu.spool pid).isSome && (kpu.calls pid).isNone

def Assembly.push (assembly : Assembly) (chunk : Chunk) : Assembly :=
  { assembly with chunks := assembly.chunks ++ [chunk.data] }

/-- The submission a chunk belongs to, with the chunk added: its own when it
carries the magic, the one in progress otherwise. -/
def grown (inProgress : Option Assembly) (pid : Nat) (chunk : Chunk) : Option Assembly :=
  if checkMagic chunk.buffer then
    match loadU64 chunk.buffer totsizeOffset with
    | none => none
    | some total =>
      if toInt total < 0 then none else some (Assembly.push ⟨pid, toInt total, []⟩ chunk)
  else inProgress.map fun assembly => assembly.push chunk

/-- The history of a write: a submission is complete at its total length and
given up beyond it. -/
def record (submitted : List Submission) : Option Assembly → Option Assembly × List Submission
  | none => (none, submitted)
  | some assembly =>
    if assembly.bytes.length = assembly.total then
      (none, submitted ++ [⟨assembly.owner, assembly.bytes⟩])
    else if (assembly.bytes.length : Int) < assembly.total then (some assembly, submitted)
    else (none, submitted)

/-- What a task's flags say of it. -/
def taskStatus (task : Task) : Result :=
  if isRunning task then .running else if isSuccess task then .got else .waiting

/-- The status of the first task a process has submitted itself. -/
def ownStatus (pid : Nat) : List (Task × Submission) → Result
  | [] => .notexist
  | (task, submission) :: rest =>
    if submission.owner = pid then taskStatus task else ownStatus pid rest

def sleepingReader (kpu : Kpuio) (pid : Nat) : Bool :=
  match kpu.calls pid with
  | some call => call.asleep && !call.write
  | none => false

def step (traced : Traced) : Event → Option Traced
  | .write pid chunk sie mem =>
    if user traced.kpu pid then
      (kpuioWrite traced.kpu chunk pid sie mem).map fun (kpu, _) =>
        let (inProgress, submitted) :=
          record traced.submitted (grown traced.inProgress pid chunk)
        ⟨kpu, inProgress, submitted, traced.answers⟩
    else some traced
  | .read pid sie mem junk =>
    if user traced.kpu pid then
      some { traced with kpu := kpuioRead traced.kpu pid sie mem junk }
    else some traced
  | .resume pid =>
    match traced.kpu.calls pid with
    | none => some traced
    | some call =>
      if call.asleep then some traced
      else (resume traced.kpu pid call).map fun (kpu, _) => { traced with kpu := kpu }
  | .controller mem taskMem created =>
    if traced.kpu.controller then
      (kpuTaskCtrl traced.kpu mem taskMem created).map fun kpu =>
        { traced with
          kpu := kpu
          answers := fun pid => if sleepingReader traced.kpu pid then
            ownStatus pid (traced.kpu.spool.kpuTasklist.zip traced.submitted)
          else traced.answers pid }
    else some traced
  | .thread k => some { traced with
      kpu := { traced.kpu with spool := runKpu traced.kpu.spool k } }

/-- After `kpu_spooling_init`, with any live processes. -/
def boot (procs : List Proc) (procPid : Nat → Nat) : Traced where
  kpu :=
    { callerPid := 0, kpuioInit := false, kpuioCheck := false, totlength := 0, sumlen := 0
      bufs := fun _ => 0, lens := fun _ => 0, numblock := 0, kpuresultbase := 0
      heap := fun _ => none
      spool := kpuSpoolingInit ⟨0, [], 0, [], [], procs, procPid⟩
      calls := fun _ => none
      controller := true }
  inProgress := none
  submitted := []
  answers _ := .notexist

/-! ## When a device call goes well -/

/-- `kmalloc` returns a block that is not in use. -/
def Fresh (kpu : Kpuio) (mem : Option Grant) : Prop :=
  ∃ block, mem = some block ∧ kpu.heap block.addr = none

/-- No process is inside a device call and the controller sleeps. -/
def Idle (kpu : Kpuio) : Prop := (∀ pid, kpu.calls pid = none) ∧ kpu.controller = false

/-- A whole header whose `totsize` is the length and whose `jpgsize` is not zero. -/
def HeaderOk (bytes : List UInt8) : Prop :=
  kpuBuffSize ≤ bytes.length ∧ loadU64 bytes totsizeOffset = some bytes.length ∧
    ∃ jpgsize, loadU64 bytes jpgsizeOffset = some jpgsize ∧ 0 < jpgsize

/-- A chunk without the magic is the next one of its sender's own submission. -/
def Continues (traced : Traced) (pid : Nat) : Prop :=
  traced.kpu.callerPid = pid ∧ traced.kpu.numblock < 64 ∧
    ∀ assembly, traced.inProgress = some assembly → assembly.owner = pid

/-- The condition for the request protocol. -/
def Orderly (traced : Traced) : Event → Prop
  | .write pid chunk _ mem => Idle traced.kpu ∧ Fresh traced.kpu mem ∧
      (checkMagic chunk.buffer = false → Continues traced pid) ∧
      ∀ assembly, grown traced.inProgress pid chunk = some assembly →
        assembly.bytes.length = assembly.total → HeaderOk assembly.bytes
  | .read _ _ mem _ => Idle traced.kpu ∧ Fresh traced.kpu mem
  | .controller mem taskMem _ => Fresh traced.kpu mem ∧ taskMem ≠ none
  | .resume _ | .thread _ => True

/-- A first chunk with a whole header that promises at least the chunk, or the
next chunk of the sender's own submission within its total length. -/
def WellFormed (traced : Traced) (pid : Nat) (chunk : Chunk) : Prop :=
  if checkMagic chunk.buffer then
    kpuBuffSize ≤ chunk.len ∧ ∃ total jpgsize, loadU64 chunk.data totsizeOffset = some total ∧
      chunk.len ≤ total ∧ total < 2 ^ 31 ∧ loadU64 chunk.data jpgsizeOffset = some jpgsize ∧
      0 < jpgsize
  else ∃ assembly, traced.inProgress = some assembly ∧ assembly.owner = pid ∧
    ((assembly.bytes.length + chunk.len : Nat) : Int) ≤ assembly.total

/-- The condition for the assembly of submissions. -/
def Assembling (traced : Traced) : Event → Prop
  | .write pid chunk _ mem => Idle traced.kpu ∧ Fresh traced.kpu mem ∧
      WellFormed traced pid chunk ∧ (checkMagic chunk.buffer = false → Continues traced pid)
  | .read _ _ mem _ => Idle traced.kpu ∧ Fresh traced.kpu mem
  | .controller mem taskMem _ => Fresh traced.kpu mem ∧ taskMem ≠ none
  | .resume _ | .thread _ => True

/-! ## What the device promises -/

/-- `bufs` and `lens` hold these chunks, each in a block of its own. -/
structure Stored (kpu : Kpuio) (chunks : List (List UInt8)) : Prop where
  count : kpu.numblock = chunks.length
  held : ∀ (i : Nat) (chunk : List UInt8), chunks[i]? = some chunk →
    kpu.heap (kpu.bufs i) = some (.bytes chunk) ∧ kpu.lens i = chunk.length
  apart : ∀ i j, i < kpu.numblock → j < kpu.numblock → kpu.bufs i = kpu.bufs j → i = j
  unshared : ∀ i < kpu.numblock, ∀ task ∈ kpu.spool.kpuTasklist, task.input ≠ kpu.bufs i

/-- The request of a sleeping process stands in the globals for the controller. -/
structure Pending (traced : Traced) (pid : Nat) (call : DevKpuio.Call) : Prop where
  caller : traced.kpu.callerPid = pid
  served : traced.kpu.controller = true
  init : traced.kpu.kpuioInit = call.write
  check : traced.kpu.kpuioCheck = !call.write
  buffer : call.write = true → ∃ chunks, Stored traced.kpu chunks ∧
    traced.submitted.getLast? = some ⟨pid, chunks.flatten⟩ ∧ HeaderOk chunks.flatten ∧
    traced.kpu.totlength = chunks.flatten.length ∧ traced.kpu.sumlen = traced.kpu.totlength
  result : call.write = false → ∃ status, traced.kpu.heap traced.kpu.kpuresultbase =
    some (.result status)

/-- The task holds a submission's bytes, with `jpeg` set to what follows the
header, and belongs to its sender. -/
def Serves (kpu : Kpuio) (task : Task) (submission : Submission) : Prop :=
  task.proc = findProc kpu.spool submission.owner ∧
    ∃ buff, kpu.heap task.input = some (.bytes buff) ∧
      storeU64 submission.bytes jpegOffset (task.input + kpuBuffSize) = some buff

/-- Every task carries the submission at its place. -/
def TasksServe (kpu : Kpuio) (submitted : List Submission) : Prop :=
  ∀ (k : Nat) (task : Task), kpu.spool.kpuTasklist[k]? = some task →
    ∃ submission, submitted[k]? = some submission ∧ Serves kpu task submission

def writerAsleep (kpu : Kpuio) : Prop :=
  ∃ pid call, kpu.calls pid = some call ∧ call.asleep = true ∧ call.write = true

/-- One task for each complete submission, in order, but for one that still
waits for the controller. -/
structure Handled (traced : Traced) : Prop where
  served : TasksServe traced.kpu traced.submitted
  waiting : writerAsleep traced.kpu →
    traced.submitted.length = traced.kpu.spool.kpuTasklist.length + 1
  done : ¬ writerAsleep traced.kpu →
    traced.submitted.length = traced.kpu.spool.kpuTasklist.length

/-- What holds of every step of the request protocol. -/
structure Served (before : Traced) (event : Event) (after : Traced) : Prop where
  pending : ∀ pid call, after.kpu.calls pid = some call → call.asleep = true →
    Pending after pid call
  handled : Handled after
  /-- The reply is the controller's look at the reader's own tasks. -/
  replied : ∀ pid call, event = .resume pid → before.kpu.calls pid = some call →
    call.asleep = false → call.write = false →
    reply before.kpu = some (resultCode (before.answers pid))

/-- What holds of every step of the assembly of submissions. -/
structure Assembled (before : Traced) (event : Event) (after : Traced) : Prop where
  room : after.kpu.numblock ≤ 64
  /-- The chunk that completes a submission leaves all its chunks, in order, for
  the controller. -/
  complete : ∀ pid chunk sie mem assembly, event = .write pid chunk sie mem →
    user before.kpu pid = true → grown before.inProgress pid chunk = some assembly →
    (assembly.bytes.length : Int) = assembly.total →
    Stored after.kpu assembly.chunks ∧ after.kpu.sumlen = assembly.total ∧
      HeaderOk assembly.bytes ∧ after.submitted = before.submitted ++ [⟨pid, assembly.bytes⟩]
  /-- The controller makes its one task of them and frees each buffer, once: no
  block is live behind it and no block was freed twice. -/
  handed : ∀ mem taskMem created, event = .controller mem taskMem created →
    writerAsleep before.kpu → ∃ task submission,
      after.kpu.spool.kpuTasklist = before.kpu.spool.kpuTasklist ++ [task] ∧
      before.submitted.getLast? = some submission ∧ Serves after.kpu task submission ∧
      ∀ i < before.kpu.numblock, before.kpu.heap (before.kpu.bufs i) ≠ none ∧
        after.kpu.heap (before.kpu.bufs i) = none
  /-- A malformed chunk is answered with an error and leaves no trace. -/
  refused : ∀ pid chunk sie mem, event = .write pid chunk sie mem →
    user before.kpu pid = true → ¬ WellFormed before pid chunk →
    ∃ ret, ret < 0 ∧ kpuioWrite before.kpu chunk pid sie mem =
      some (before.kpu, .returned ret sie)
  /-- A write returns with the interrupt state it was entered with, at once or
  from the sleep it goes to. -/
  interrupts : ∀ pid chunk sie mem, event = .write pid chunk sie mem →
    user before.kpu pid = true →
    (∃ ret, kpuioWrite before.kpu chunk pid sie mem = some (after.kpu, .returned ret sie)) ∨
      after.kpu.calls pid = some ⟨true, true, sie⟩
  resumed : ∀ pid call, event = .resume pid → before.kpu.calls pid = some call →
    call.asleep = false →
    resume before.kpu pid call = some (after.kpu, .returned 0 call.sie)

end Ucore.KpuProtocol
