import Ucore.Call

/-! Three-level page tables, `kern/mm/pmm.c`. A frame is named by its physical
page number and holds 512 words: a table, or the data of a page. `alloc_page`
asks the page manager; with the swap manager on it does not return without a
page, but follows `check_mm_struct`, which is null after the boot. -/
namespace Ucore.Paging
open Call

def pgsize : Nat := 4096
def ptsize : Nat := 512 * pgsize
def pdsize : Nat := 512 * ptsize
def nbase : Nat := 0x80000
def npage : Nat := 0x805ff
def userbase : Nat := 0x200000
def usertop : Nat := 0x80000000

def pteV : Nat := 0x001
def pteR : Nat := 0x002
def pteW : Nat := 0x004
def pteX : Nat := 0x008
def pteU : Nat := 0x010

def eInval : Int := 3
def eNoMem : Int := 4

/-- `struct pmm_manager`, asked for single pages. -/
class PmmManager (α : Type) where
  allocPages : Call α (Option Nat)
  freePages : Nat → Call α Unit

/-- The machine memory, and the page manager in the state `pmm`. -/
structure Memory (α : Type) where
  pmm : α
  /-- `ref` of each `struct Page`. -/
  ref : Nat → Int
  mem : Nat → Nat → Nat
  swapInitOk : Bool
  bootPgdir : Nat
  /-- Whether the heap of `kmalloc` has room for the next objects without a new page. -/
  room : Nat → Bool

variable {α : Type}

/-! ## Words -/

def setPageRef (page : Nat) (ref : Int) : Call (Memory α) Unit :=
  modify fun vm => { vm with ref := Function.update vm.ref page ref }

def pageRefInc (page : Nat) : Call (Memory α) Unit :=
  modify fun vm => { vm with ref := Function.update vm.ref page (vm.ref page + 1) }

def pageRefDec (page : Nat) : Call (Memory α) Unit :=
  modify fun vm => { vm with ref := Function.update vm.ref page (vm.ref page - 1) }

def load (frame index : Nat) : Call (Memory α) Nat := gets fun vm => vm.mem frame index

def store (frame index word : Nat) : Call (Memory α) Unit :=
  modify fun vm => { vm with
    mem := Function.update vm.mem frame (Function.update (vm.mem frame) index word) }

/-- `memset` of a page to 0. -/
def clearPage (frame : Nat) : Call (Memory α) Unit :=
  modify fun vm => { vm with mem := Function.update vm.mem frame fun _ => 0 }

/-- `memcpy` of a page. -/
def copyPage (dst src : Nat) : Call (Memory α) Unit :=
  modify fun vm => { vm with mem := Function.update vm.mem dst (vm.mem src) }

/-! ## Entries -/

def pdx1 (la : Nat) : Nat := la / pdsize % 512
def pdx0 (la : Nat) : Nat := la / ptsize % 512
def ptx (la : Nat) : Nat := la / pgsize % 512

def pteCreate (ppn type : Nat) : Nat := ppn <<< 10 ||| pteV ||| type

def valid (entry : Nat) : Bool := entry % 2 = 1

def pteUser (entry : Nat) : Nat := entry % 32

def ppn (entry : Nat) : Nat := entry / 1024

/-- `KADDR` panics on an address behind the memory. -/
def kaddr (entry : Nat) : Call (Memory α) Nat := do
  assert (ppn entry < npage)
  return ppn entry

/-- `pa2page`; there is no `struct Page` for a device below the memory. -/
def pa2page (entry : Nat) : Call (Memory α) Nat := do
  assert (ppn entry < npage && nbase ≤ ppn entry)
  return ppn entry

def pte2page (entry : Nat) : Call (Memory α) Nat := do
  assert (valid entry)
  pa2page entry

/-! ## Pages -/

variable [PmmManager α]

def onPmm {β : Type} (call : Call α β) : Call (Memory α) β :=
  within Memory.pmm (fun pmm vm => { vm with pmm := pmm }) call

def allocPage : Call (Memory α) (Option Nat) := do
  match ← onPmm PmmManager.allocPages with
  | some page => return some page
  | none =>
    let on ← gets fun vm => vm.swapInitOk
    if on then stop else return none

/-- The manager sets `ref` to 0. -/
def freePage (page : Nat) : Call (Memory α) Unit := do
  onPmm (PmmManager.freePages page)
  setPageRef page 0

/-- One small object from the heap, which takes a page when it has no room. -/
def kmalloc : Call (Memory α) Bool := do
  let roomy ← gets fun vm => vm.room 0
  modify fun vm => { vm with room := fun n => vm.room (n + 1) }
  if roomy then return true
  else
    let page ← allocPage
    return page.isSome

/-! ## Tables -/

/-- The table below an entry is there, perhaps new. -/
def makeTable (table index : Nat) (create : Bool) : Call (Memory α) Bool := do
  let entry ← load table index
  if valid entry then return true
  else if !create then return false
  else
    match ← allocPage with
    | none => return false
    | some page =>
      setPageRef page 1
      clearPage page
      store table index (pteCreate page (pteU ||| pteV))
      return true

def tableAt (table index : Nat) : Call (Memory α) Nat := do
  let entry ← load table index
  kaddr entry

/-- The place of an entry in memory: its table's frame and its index. -/
def getPte (pgdir la : Nat) (create : Bool) : Call (Memory α) (Option (Nat × Nat)) := do
  let made1 ← makeTable pgdir (pdx1 la) create
  if !made1 then return none
  else
    let table1 ← tableAt pgdir (pdx1 la)
    let made0 ← makeTable table1 (pdx0 la) create
    if !made0 then return none
    else
      let table0 ← tableAt table1 (pdx0 la)
      return some (table0, ptx la)

def pageRemovePte (frame index : Nat) : Call (Memory α) Unit := do
  let entry ← load frame index
  onlyIf (valid entry) do
    let page ← pte2page entry
    pageRefDec page
    let ref ← gets fun vm => vm.ref page
    onlyIf (ref = 0) (freePage page)
    store frame index 0

def pageRemove (pgdir la : Nat) : Call (Memory α) Unit := do
  match ← getPte pgdir la false with
  | none => return ()
  | some (frame, index) => pageRemovePte frame index

def pageInsert (pgdir page la perm : Nat) : Call (Memory α) Unit := do
  match ← getPte pgdir la true with
  | none => fail (-eNoMem)
  | some (frame, index) =>
    pageRefInc page
    let entry ← load frame index
    onlyIf (valid entry) do
      let old ← pte2page entry
      if old = page then pageRefDec page
      else pageRemovePte frame index
    store frame index (pteCreate page (pteV ||| perm))

/-- `swap_map_swappable` is not reached: `check_mm_struct` is null after the boot. -/
def pgdirAllocPage (pgdir la perm : Nat) : Call (Memory α) (Option Nat) := do
  match ← allocPage with
  | none => return none
  | some page =>
    match ← attempt (pageInsert pgdir page la perm) with
    | .ok () => return some page
    | .error _ =>
      freePage page
      return none

/-! ## Ranges -/

def userAccess (start finish : Nat) : Bool := userbase ≤ start && start < finish && finish ≤ usertop

def aligned (address : Nat) : Bool := address % pgsize = 0

/-- `ROUNDDOWN(start + PTSIZE, PTSIZE)`, where the table for `start` is missing. -/
def nextTable (start : Nat) : Nat := (start / ptsize + 1) * ptsize

/-- The loops over a range do their body at least once; `more` bounds the rounds. -/
def unmapLoop (pgdir finish : Nat) : Nat → Nat → Call (Memory α) Unit
  | 0, _ => return ()
  | more + 1, start => do
    match ← getPte pgdir start false with
    | none => if nextTable start < finish then unmapLoop pgdir finish more (nextTable start) else return ()
    | some (frame, index) =>
      let entry ← load frame index
      onlyIf (entry ≠ 0) (pageRemovePte frame index)
      if start + pgsize < finish then unmapLoop pgdir finish more (start + pgsize) else return ()

def unmapRange (pgdir start finish : Nat) : Call (Memory α) Unit := do
  assert (aligned start && aligned finish)
  assert (userAccess start finish)
  unmapLoop pgdir finish (finish / pgsize - start / pgsize) start

def unmapIoLoop (pgdir finish : Nat) : Nat → Nat → Call (Memory α) Unit
  | 0, _ => return ()
  | more + 1, start => do
    match ← getPte pgdir start false with
    | none => if nextTable start < finish then unmapIoLoop pgdir finish more (nextTable start) else return ()
    | some (frame, index) =>
      store frame index 0
      if start + pgsize < finish then unmapIoLoop pgdir finish more (start + pgsize) else return ()

def unmapRangeIo (pgdir start finish : Nat) : Call (Memory α) Unit := do
  assert (aligned start && aligned finish)
  unmapIoLoop pgdir finish (finish / pgsize - start / pgsize) start

/-- One page of `copy_range`, mapped by `entry` at `start`. -/
def copyEntry (target start entry : Nat) : Call (Memory α) Unit := do
  match ← getPte target start true with
  | none => fail (-eNoMem)
  | some _ =>
    let page ← pte2page entry
    match ← allocPage with
    | none => stop
    | some npage =>
      copyPage npage page
      match ← attempt (pageInsert target npage start (pteUser entry)) with
      | .ok () => return ()
      | .error _ => stop

def copyLoop (target source finish : Nat) : Nat → Nat → Call (Memory α) Unit
  | 0, _ => return ()
  | more + 1, start => do
    match ← getPte source start false with
    | none => if nextTable start < finish then copyLoop target source finish more (nextTable start) else return ()
    | some (frame, index) =>
      let entry ← load frame index
      onlyIf (valid entry) (copyEntry target start entry)
      if start + pgsize < finish then copyLoop target source finish more (start + pgsize) else return ()

def copyRange (target source start finish : Nat) : Call (Memory α) Unit := do
  assert (aligned start && aligned finish)
  assert (userAccess start finish)
  copyLoop target source finish (finish / pgsize - start / pgsize) start

/-! ## Tables that are empty -/

/-- The table and the entry that points to it. -/
def tryToFreeTable (table frame index : Nat) : Call (Memory α) Unit := do
  let blank ← gets fun vm => (List.range 512).all fun i => !valid (vm.mem table i)
  onlyIf blank do
    let entry ← load frame index
    let page ← pa2page entry
    freePage page
    store frame index 0

/-- The tables below one page directory, from `d0start` on. -/
def exitTables (pd0 d1start finish : Nat) : Nat → Nat → Call (Memory α) Unit
  | 0, _ => return ()
  | more + 1, d0start => do
    let pde0 ← load pd0 (pdx0 d0start)
    onlyIf (valid pde0) do
      let page ← pa2page pde0
      tryToFreeTable page pd0 (pdx0 d0start)
    if d0start + ptsize < d1start + pdsize && d0start + ptsize < finish then
      exitTables pd0 d1start finish more (d0start + ptsize)
    else return ()

def exitLoop (pgdir finish : Nat) : Nat → Nat → Nat → Call (Memory α) Unit
  | 0, _, _ => return ()
  | more + 1, d1start, d0start => do
    let pde1 ← load pgdir (pdx1 d1start)
    onlyIf (valid pde1) do
      let pd0 ← pa2page pde1
      exitTables pd0 d1start finish 512 d0start
      tryToFreeTable pd0 pgdir (pdx1 d1start)
    if d1start + pdsize < finish then exitLoop pgdir finish more (d1start + pdsize) (d1start + pdsize)
    else return ()

def exitRange (pgdir start finish : Nat) (check : Bool) : Call (Memory α) Unit := do
  assert (aligned start && aligned finish)
  onlyIf check (assert (userAccess start finish))
  exitLoop pgdir finish (finish / pdsize + 1) (start / pdsize * pdsize) (start / ptsize * ptsize)

/-! ## Page directories -/

/-- `n` pages from `la` on, mapped to the frames from `pa` on. -/
def bootMapPages (pgdir perm : Nat) : Nat → Nat → Nat → Call (Memory α) Unit
  | 0, _, _ => return ()
  | n + 1, la, pa => do
    match ← getPte pgdir la true with
    | none => stop
    | some (frame, index) =>
      store frame index (pteCreate (pa / pgsize) (pteV ||| perm))
      bootMapPages pgdir perm n (la + pgsize) (pa + pgsize)

def bootMapSegment (pgdir la size pa perm : Nat) : Call (Memory α) Unit := do
  assert (la % pgsize = pa % pgsize)
  bootMapPages pgdir perm ((size + la % pgsize + (pgsize - 1)) / pgsize)
    (la / pgsize * pgsize) (pa / pgsize * pgsize)

/-- Start and end of each region. -/
def ioRegions : List (Nat × Nat) :=
  [(0x0C000000, 0x10000000), (0x38000000, 0x38002000), (0x40000000, 0x42400000),
    (0x50000000, 0x55000000), (0x80000000, 0x80000000 + ptsize)]

def forEach {β : Type} (body : β → Call (Memory α) Unit) : List β → Call (Memory α) Unit
  | [] => return ()
  | item :: rest => do
    body item
    forEach body rest

def setupKernelIoMapping (pgdir : Nat) : Call (Memory α) Unit :=
  forEach (fun (start, finish) => bootMapSegment pgdir start (finish - start) start (pteR ||| pteW)) ioRegions

def freeKernelIoMapping (pgdir : Nat) : Call (Memory α) Unit := do
  forEach (fun (start, finish) => unmapRangeIo pgdir start finish) ioRegions
  forEach (fun (start, finish) => exitRange pgdir start finish false) ioRegions

/-- The new page directory. -/
def setupPgdir : Call (Memory α) Nat := do
  match ← allocPage with
  | none => fail (-eNoMem)
  | some pgdir =>
    clearPage pgdir
    let boot ← gets fun vm => vm.bootPgdir
    let kernel ← load boot 511
    store pgdir 511 kernel
    setupKernelIoMapping pgdir
    return pgdir

def putPgdir (pgdir : Nat) : Call (Memory α) Unit := do
  freeKernelIoMapping pgdir
  freePage pgdir

end Ucore.Paging
