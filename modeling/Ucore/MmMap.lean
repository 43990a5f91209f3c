import Ucore.UserMem

/-! The vmas of a process, `kern/mm/vmm.c`: how a range gets one, and how `fork`
copies them with their pages. `map_count` and the links back to the mm are not
read by anyone. -/
namespace Ucore.MmMap
open Call Paging UserMem

/-- The memory and one address space in it. -/
structure AddressSpace (α : Type) where
  vm : Memory α
  mm : Mm
  pgdir : Nat

variable {α : Type}

def onVm {β : Type} (call : Call (Memory α) β) : Call (AddressSpace α) β :=
  within AddressSpace.vm (fun vm space => { space with vm := vm }) call

/-- `ROUNDUP`. -/
def roundup (a n : Nat) : Nat := rounddown (word (a + n - 1)) n

def findVma (addr : Nat) : Call (AddressSpace α) (Option Vma) := fun space =>
  let (mm, vma) := UserMem.findVma space.mm addr
  some (.ok vma, { space with mm := mm })

def vmaCreate [PmmManager α] (vmStart vmEnd : Nat) (vmFlags : VmFlags) : Call (AddressSpace α) (Option Vma) := do
  let room ← onVm kmalloc
  return if room then some ⟨vmStart, vmEnd, vmFlags⟩ else none

/-! ## The list -/

def checkVmaOverlap (prev next : Vma) : Call (AddressSpace α) Unit := do
  assert (prev.vmStart < prev.vmEnd)
  assert (prev.vmEnd ≤ next.vmStart)
  assert (next.vmStart < next.vmEnd)

/-- Whether the scan for the place of a vma goes on behind another. -/
def goesBefore (vma mmapPrev : Vma) : Bool := mmapPrev.vmStart ≤ vma.vmStart

/-- The vma against the one before its place. -/
def checkPrev (before : List Vma) (vma : Vma) : Call (AddressSpace α) Unit :=
  match before.getLast? with
  | some prev => checkVmaOverlap prev vma
  | none => pure ()

/-- The vma against the one behind its place. -/
def checkNext (vma : Vma) (behind : List Vma) : Call (AddressSpace α) Unit :=
  match behind.head? with
  | some next => checkVmaOverlap vma next
  | none => pure ()

def insertVmaStruct (vma : Vma) : Call (AddressSpace α) Unit := do
  assert (vma.vmStart < vma.vmEnd)
  let list ← gets fun space => space.mm.mmapList
  let before := list.takeWhile (goesBefore vma)
  let behind := list.dropWhile (goesBefore vma)
  checkPrev before vma
  checkNext vma behind
  modify fun space => { space with mm := { space.mm with mmapList := before ++ vma :: behind } }

/-! ## Requests -/

/-- Behind the lookup of `mm_map`. -/
def mapVma [PmmManager α] (start finish : Nat) (vmFlags : VmFlags) : Call (AddressSpace α) Vma := do
  match ← vmaCreate start finish vmFlags with
  | none => fail (-eNoMem)
  | some vma =>
    insertVmaStruct vma
    return vma

/-- What is returned is stored to `vma_store`. -/
def mmMap [PmmManager α] (addr len : Nat) (vmFlags : VmFlags) : Call (AddressSpace α) Vma := do
  let start := rounddown addr pgsize
  let finish := roundup (word (addr + len)) pgsize
  if !userAccess start finish then fail (-eInval)
  else
    match ← findVma start with
    | some vma => if vma.vmStart < finish then fail (-eInval) else mapVma start finish vmFlags
    | none => mapVma start finish vmFlags

/-! ## Copies -/

/-- One vma of `dup_mmap`. -/
def dupVma [PmmManager α] (source : Nat) (vma : Vma) : Call (AddressSpace α) Unit := do
  match ← vmaCreate vma.vmStart vma.vmEnd vma.vmFlags with
  | none => fail (-eNoMem)
  | some nvma =>
    insertVmaStruct nvma
    let pgdir ← gets fun space => space.pgdir
    match ← onVm (attempt (copyRange pgdir source vma.vmStart vma.vmEnd)) with
    | .ok () => return ()
    | .error _ => fail (-eNoMem)

/-- The loop, from the last vma to the first. -/
def dupVmas [PmmManager α] (source : Nat) : List Vma → Call (AddressSpace α) Unit
  | [] => return ()
  | vma :: vmas => do
    dupVmas source vmas
    dupVma source vma

/-- Into a space; the one that is copied is only read. -/
def dupMmap [PmmManager α] (source : Nat) (mm : Mm) : Call (AddressSpace α) Unit := dupVmas source mm.mmapList

end Ucore.MmMap
