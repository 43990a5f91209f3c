import Ucore.PageManager
import Ucore.UserMem

/-! The handler of page faults, `do_pgfault` of `kern/mm/vmm.c`, with the way a
page comes back from the swap device. The system is up, so `check_mm_struct` is
null and nothing looks at the list of swappable pages that the handler adds to. -/
namespace Ucore.PageFault
open Call Paging UserMem

def readWrite : Nat := pteR ||| pteW ||| pteV

/-- The memory, the mm of the process that faults and the swap device. -/
structure Faulting where
  vm : Vm
  mm : Mm
  pgdir : Nat
  /-- Whether `sm_priv` of the mm is set. -/
  smPriv : Bool
  praVaddr : Nat → Nat
  /-- The words of the pages on the device. -/
  swapfs : Nat → Nat → Nat
  maxSwapOffset : Nat
  pgfaultNum : Nat

def onVm {α : Type} (call : Call Vm α) : Call Faulting α :=
  within Faulting.vm (fun vm state => { state with vm := vm }) call

/-! ## The swap device -/

def swapOffset (entry maxSwapOffset : Nat) : Nat := entry / 2 ^ 8 % maxSwapOffset

/-- The device is a disk in memory, which `max_swap_offset` pages fit in. -/
def swapfsRead (entry page : Nat) : Call Faulting Unit :=
  modify fun state => { state with vm := { state.vm with
    mem := Function.update state.vm.mem page (state.swapfs (swapOffset entry state.maxSwapOffset)) } }

/-- The new page; it returns no error. -/
def swapIn (addr : Nat) : Call Faulting Nat := do
  match ← onVm allocPage with
  | none => stop
  | some result =>
    let state ← gets fun state => state
    match ← onVm (getPte state.pgdir addr false) with
    | none => stop
    | some (frame, index) =>
      let entry ← onVm (load frame index)
      swapfsRead entry result
      return result

/-- `_fifo_map_swappable`. -/
def swapMapSwappable : Call Faulting Unit := do
  let state ← gets fun state => state
  assert state.smPriv

/-! ## The handler -/

def faultPerm (vma : Vma) : Nat := if vma.vmFlags.write then pteU ||| readWrite else pteU

/-- The entry of the page is not 0. -/
def faultSwapped (addr perm : Nat) : Call Faulting Unit := do
  let state ← gets fun state => state
  if state.vm.swapInitOk then
    let page ← swapIn addr
    let _ ← onVm (attempt (pageInsert state.pgdir page addr perm))
    swapMapSwappable
    modify fun state => { state with praVaddr := Function.update state.praVaddr page addr }
  else fail (-eNoMem)

def faultPage (pgdir addr perm : Nat) : Call Faulting Unit := do
  match ← onVm (getPte pgdir addr true) with
  | none => fail (-eNoMem)
  | some (frame, index) =>
    let entry ← onVm (load frame index)
    if entry = 0 then
      match ← onVm (pgdirAllocPage pgdir addr perm) with
      | none => fail (-eNoMem)
      | some _ => return ()
    else faultSwapped addr perm

/-- The cause of the fault is not looked at. -/
def doPgfault (_errorCode addr : Nat) : Call Faulting Unit := do
  let state ← gets fun state => state
  let (mm, vma) := findVma state.mm addr
  modify fun state => { state with mm := mm, pgfaultNum := (state.pgfaultNum + 1) % 2 ^ 32 }
  match vma with
  | none => fail (-eInval)
  | some vma =>
    if addr < vma.vmStart then fail (-eInval)
    else faultPage state.pgdir (rounddown addr pgsize) (faultPerm vma)

/-- The trap goes to the process that runs. -/
def pgfaultHandler (cause tval : Nat) : Call Faulting Unit := doPgfault cause tval

end Ucore.PageFault
