import Ucore.KpuSpooling

/-! The kpuio device, `kern/fs/devs/dev_kpuio.c`, with the controller thread of
`kpu_spooling.c` that serves it. The kernel is not preemptive, so a process or
the controller runs from one call of `schedule` to its next as one step. What
`kmalloc` and `kernel_thread` answer comes with the step. `none` is a panic, a
failed assertion or an access outside the arrays or a live heap block. -/
namespace Ucore.DevKpuio
open KpuSpooling

/-- A live heap block of the device: bytes, or the reply a reader waits for. -/
inductive Block where
  | bytes (contents : List UInt8)
  | result (status : Int)

/-- What `kmalloc` returns: a block and what it held before. -/
structure Grant where
  addr : Nat
  junk : Nat → UInt8

/-- The kernel buffer `sysfile_write` passes down and how much of it is new. -/
structure Chunk where
  buffer : List UInt8
  len : Nat
  size : buffer.length = 4096
  positive : 0 < len
  within : len ≤ 4096

def Chunk.data (chunk : Chunk) : List UInt8 := chunk.buffer.take chunk.len

/-- The device call a process is inside of: asleep in `WT_KPU_INIT` after a
write or in `WT_KPU` after a read, or woken and not yet scheduled. `sie` is the
interrupt state at entry. -/
structure Call where
  write : Bool
  asleep : Bool
  sie : Bool

structure Kpuio where
  callerPid : Nat
  kpuioInit : Bool
  kpuioCheck : Bool
  totlength : Int
  sumlen : Int
  bufs : Nat → Nat
  lens : Nat → Nat
  numblock : Nat
  kpuresultbase : Nat
  heap : Nat → Option Block
  spool : Spool
  calls : Nat → Option Call
  /-- Whether the controller thread is runnable. -/
  controller : Bool

/-- How a write leaves the device: with a value and an interrupt state, or asleep. -/
inductive Outcome where
  | returned (ret : Int) (sie : Bool)
  | sleeping
  deriving DecidableEq

/-! ## The layout of `kpu_buff` -/

def totsizeOffset : Nat := 16
def jpgsizeOffset : Nat := 24
def jpegOffset : Nat := 40
def kpuBuffSize : Nat := 48

/-- "kpumagic" -/
def magic : List UInt8 := [107, 112, 117, 109, 97, 103, 105, 99]

def loadU64 (bytes : List UInt8) (offset : Nat) : Option Nat :=
  if offset + 8 ≤ bytes.length then
    some (((bytes.drop offset).take 8).foldr (fun byte rest => byte.toNat + 256 * rest) 0)
  else none

def storeU64 (bytes : List UInt8) (offset value : Nat) : Option (List UInt8) :=
  if offset + 8 ≤ bytes.length then
    some (bytes.take offset ++ (List.range 8).map (fun i => UInt8.ofNat (value / 256 ^ i)) ++
      bytes.drop (offset + 8))
  else none

/-- Conversion to `int`. -/
def toInt (n : Int) : Int := n.bmod (2 ^ 32)

def checkMagic (buff : List UInt8) : Bool := buff.take 8 = magic

/-! ## Writing -/

/-- `run_kpu_task_add` and `run_kpu_task_check` up to `schedule`. -/
def sleepFor (kpu : Kpuio) (pid : Nat) (write sie : Bool) : Kpuio :=
  { kpu with
    calls := Function.update kpu.calls pid (some ⟨write, true, sie⟩)
    controller := true }

/-- The copy of a chunk into `bufs[numblock]`. -/
def keepChunk (kpu : Kpuio) (chunk : Chunk) (addr : Nat) : Kpuio :=
  { kpu with
    lens := Function.update kpu.lens kpu.numblock chunk.len
    bufs := Function.update kpu.bufs kpu.numblock addr
    heap := Function.update kpu.heap addr (some (.bytes chunk.data))
    numblock := kpu.numblock + 1
    sumlen := toInt (kpu.sumlen + chunk.len) }

/-- The part of `dev_kpuio_taskinit` after the checks. -/
def storeChunk (kpu : Kpuio) (chunk : Chunk) (pid : Nat) (sie : Bool) (mem : Option Grant) :
    Option (Kpuio × Outcome) := do
  if kpu.numblock < 64 then
    let block ← mem
    let kept := keepChunk kpu chunk block.addr
    if kept.sumlen = kept.totlength then
      return (sleepFor { kept with kpuioInit := true, kpuioCheck := false } pid true sie, .sleeping)
    else return (kept, .returned 0 sie)
  else none

def devKpuioTaskinit (kpu : Kpuio) (chunk : Chunk) (pid : Nat) (sie : Bool) (mem : Option Grant) :
    Option (Kpuio × Outcome) :=
  if checkMagic chunk.buffer then
    match loadU64 chunk.buffer totsizeOffset with
    | none => none
    | some totsize =>
      let started := { kpu with numblock := 0, totlength := toInt totsize, sumlen := 0 }
      -- this return skips `local_intr_restore`
      if started.totlength < 0 then some (started, .returned (-1) false)
      else storeChunk { started with callerPid := pid } chunk pid sie mem
  else if kpu.callerPid ≠ pid then none
  else storeChunk kpu chunk pid sie mem

/-- `kpuio_io` for a write. -/
def kpuioWrite (kpu : Kpuio) (chunk : Chunk) (pid : Nat) (sie : Bool) (mem : Option Grant) :
    Option (Kpuio × Outcome) :=
  devKpuioTaskinit { kpu with kpuioInit := true, kpuioCheck := false } chunk pid sie mem

/-! ## Reading -/

/-- `kpuio_io` for a read, up to where `dev_try_getresult` goes to sleep. -/
def kpuioRead (kpu : Kpuio) (pid : Nat) (sie : Bool) (mem : Option Grant) (junk : Int) : Kpuio :=
  let asking := { kpu with kpuioCheck := true, kpuioInit := false, callerPid := pid }
  match mem with
  | none => sleepFor { asking with kpuresultbase := 0 } pid false sie
  | some block =>
    sleepFor { asking with
      kpuresultbase := block.addr
      heap := Function.update kpu.heap block.addr (some (.result junk)) } pid false sie

/-- What a reader copies to its buffer when it runs again. -/
def reply (kpu : Kpuio) : Option Int :=
  match kpu.heap kpu.kpuresultbase with
  | some (.result status) => some status
  | _ => none

/-- A woken process runs on behind `schedule` and returns from the device. -/
def resume (kpu : Kpuio) (pid : Nat) (call : Call) : Option (Kpuio × Outcome) :=
  let done := { kpu with
    kpuioInit := false
    kpuioCheck := false
    calls := Function.update kpu.calls pid none }
  if call.write then some (done, .returned 0 call.sie)
  else do
    let _ ← reply kpu
    return ({ done with heap := Function.update kpu.heap kpu.kpuresultbase none },
      .returned 0 call.sie)

/-! ## The controller -/

/-- The loop of `add_kpu_task` over the first `n` chunk buffers. -/
def copyBlocks (kpu : Kpuio) : Nat → Option (List UInt8 × (Nat → Option Block) × (Nat → Nat))
  | 0 => some ([], kpu.heap, kpu.lens)
  | n + 1 => do
    let (dst, heap, lens) ← copyBlocks kpu n
    match heap (kpu.bufs n) with
    | some (.bytes src) =>
      if src.length < lens n then none
      else
        return (dst ++ src.take (lens n), Function.update heap (kpu.bufs n) none,
          Function.update lens n 0)
    | _ => none

/-- Returns the new task's id, or 99 where `jpgsize` is zero. -/
def addKpuTask (kpu : Kpuio) (callerpid : Nat) (mem : Option Grant) (taskMem : Option (BitVec 32)) :
    Option (Kpuio × Nat) := do
  if 0 < kpu.totlength then
    let total := kpu.totlength.toNat
    let block ← mem
    let blank := (List.range total).map block.junk
    let (dst, heap, lens) ←
      copyBlocks { kpu with heap := Function.update kpu.heap block.addr (some (.bytes blank)) }
        kpu.numblock
    if total < dst.length then none
    else
      let buff := dst ++ blank.drop dst.length
      let totsize ← loadU64 buff totsizeOffset
      if totsize ≠ total then none
      else
        let buff ← storeU64 buff jpegOffset (block.addr + kpuBuffSize)
        let jpgsize ← loadU64 buff jpgsizeOffset
        let copied := { kpu with
          heap := Function.update heap block.addr (some (.bytes buff))
          lens := lens }
        if 0 < jpgsize then
          let junk ← taskMem
          let (spool, id) := enlistTask kpu.spool callerpid block.addr junk
          return ({ copied with spool := spool }, id)
        else return (copied, 99)
  else none

/-- `wakeup_proc(find_proc(pid))`. -/
def wakeup (kpu : Kpuio) (pid : Nat) : Option Kpuio := do
  let _ ← findProc kpu.spool pid
  let woken := (kpu.calls pid).map fun call => { call with asleep := false }
  return { kpu with calls := Function.update kpu.calls pid woken }

/-- `RESULT_GOT` and the other answers as the device reports them. -/
def resultCode : Result → Int
  | .got => 0
  | .waiting => -2
  | .running => -1
  | .notexist => -3

/-- One turn of the loop of `kpu_task_ctrl`. -/
def kpuTaskCtrl (kpu : Kpuio) (mem : Option Grant) (taskMem : Option (BitVec 32))
    (created : Bool) : Option Kpuio := do
  let rest := { kpu with controller := false }
  if kpu.kpuioInit && !kpu.kpuioCheck then
    if 2 < kpu.callerPid then
      let (added, id) ← addKpuTask rest kpu.callerPid mem taskMem
      let spool ← tryRunTask added.spool id created
      wakeup { added with spool := spool } kpu.callerPid
    else return rest
  else if kpu.kpuioCheck && !kpu.kpuioInit then
    let status ← tryCheckResult kpu.spool kpu.callerPid
    let _ ← reply kpu
    wakeup { rest with
      heap := Function.update kpu.heap kpu.kpuresultbase (some (.result (resultCode status))) }
      kpu.callerPid
  else return rest

end Ucore.DevKpuio
