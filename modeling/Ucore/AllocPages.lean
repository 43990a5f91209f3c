import Ucore.Call
import Ucore.DefaultPmmProofs
import Ucore.Paging
import Ucore.Runs

/-! `alloc_pages` of `kern/mm/pmm.c` with `swap_out` of `kern/mm/swap.c` and the
FIFO list of `kern/mm/swap_fifo.c`, on the first-fit manager. A page is its index
in `pages`. A stop of the system is a failed assertion, a pointer that is null or
leads to no page, or a loop that does not end. -/
namespace Ucore.AllocPages
open Call DefaultPmm ListHeader Paging

/-- The entries of the list of swappable pages. -/
inductive PraNode where
  | praListHead
  | praPageLink (page : Nat)
  deriving DecidableEq

/-- `struct mm_struct`. The pointer `sm_priv` is null or leads to the one list there is. -/
structure Mm where
  pgdir : Nat
  smPriv : Bool
  deriving DecidableEq

structure Machine where
  area : Area
  pra : Ring.Links PraNode
  praVaddr : Nat → Nat
  /-- The words of each frame. -/
  mem : Nat → Nat → Nat
  /-- The pages on the swap disk. -/
  swap : Nat → Nat → Nat
  maxSwapOffset : Nat
  swapInitOk : Bool
  checkMmStruct : Option Mm

def maxDiskNsecs : Nat := 0x10000000
def pageNsect : Nat := 8
def maxSwapOffsetLimit : Nat := 1 <<< 24

/-- `page2ppn`. -/
def page2ppn (page : Nat) : Nat := nbase + page

/-! ## The swap manager -/

/-- `list_del` and `le2page` of the first entry; the entry of an empty list is in no page. -/
def fifoSwapOutVictim (mm : Option Mm) : Call Machine Nat := do
  match mm with
  | none => stop
  | some mm =>
    assert mm.smPriv
    let machine ← gets fun machine => machine
    match listNext machine.pra .praListHead with
    | .praListHead => stop
    | .praPageLink page =>
      modify fun machine => { machine with pra := listDel machine.pra (.praPageLink page) }
      return page

def fifoMapSwappable (mm : Option Mm) (page : Nat) : Call Machine Unit := do
  match mm with
  | none => stop
  | some mm =>
    assert mm.smPriv
    modify fun machine => { machine with pra := listAddBefore machine.pra .praListHead (.praPageLink page) }

def fifoInitMm : Call Machine Unit :=
  modify fun machine => { machine with pra := listInit machine.pra .praListHead }

/-- `get_pte` without creating a table: the table's frame and the index. -/
def getPte (pgdir la : Nat) : Call Machine (Option (Nat × Nat)) := do
  let machine ← gets fun machine => machine
  let pde1 := machine.mem pgdir (pdx1 la)
  if !valid pde1 then return none
  else
    assert (ppn pde1 < Paging.npage)
    let pde0 := machine.mem (ppn pde1) (pdx0 la)
    if !valid pde0 then return none
    else
      assert (ppn pde0 < Paging.npage)
      return some (ppn pde0, ptx la)

def swapEntry (vaddr : Nat) : Nat := (vaddr / pgsize + 1) <<< 8

def swapOffset (entry maxSwapOffset : Nat) : Nat := (entry >>> 8) % maxSwapOffset

/-- The disk in memory takes every sector that there is. -/
def swapfsWrite (entry page : Nat) : Call Machine Int := do
  let machine ← gets fun machine => machine
  let secno := swapOffset entry machine.maxSwapOffset * pageNsect
  assert (secno < maxDiskNsecs && secno + pageNsect ≤ maxDiskNsecs)
  modify fun machine => { machine with
    swap := Function.update machine.swap (swapOffset entry machine.maxSwapOffset) (machine.mem (page2ppn page)) }
  return 0

def freePage (page : Nat) : Call Machine Unit := do
  let machine ← gets fun machine => machine
  match defaultFreePages machine.area page 1 with
  | none => stop
  | some area => modify fun machine => { machine with area := area }

/-- The loop over the `n` pages. Nothing reads the number of pages that it returns. -/
def swapOut (mm : Option Mm) : Nat → Call Machine Unit
  | 0 => return ()
  | more + 1 => do
    let page ← fifoSwapOutVictim mm
    let machine ← gets fun machine => machine
    let v := machine.praVaddr page
    match mm with
    | none => stop
    | some { pgdir, .. } =>
      match ← getPte pgdir v with
      | none => stop
      | some (frame, index) =>
        let machine ← gets fun machine => machine
        assert (valid (machine.mem frame index))
        let saved ← swapfsWrite (swapEntry v) page
        if saved ≠ 0 then do
          fifoMapSwappable mm page
          swapOut mm more
        else do
          modify fun machine => { machine with
            mem := Function.update machine.mem frame (Function.update (machine.mem frame) index (swapEntry v)) }
          freePage page
          swapOut mm more

/-- `swapfs_init` takes the number of sectors of the swap disk. -/
def swapInit (deviceSize : Nat) : Call Machine Unit := do
  let maxSwapOffset := deviceSize / pageNsect
  assert (7 ≤ maxSwapOffset && maxSwapOffset < maxSwapOffsetLimit)
  modify fun machine => { machine with maxSwapOffset := maxSwapOffset, swapInitOk := true }

/-! ## Allocation -/

def pmmAllocPages (n : Nat) : Call Machine (Option Nat) := do
  let machine ← gets fun machine => machine
  match defaultAllocPages machine.area n with
  | none => stop
  | some (page, area) =>
    modify fun machine => { machine with area := area }
    return page

/-- The loop, which may go around `turns` times. -/
def allocPages (n : Nat) : Nat → Call Machine (Option Nat)
  | 0 => stop
  | turns + 1 => do
    let page ← pmmAllocPages n
    let machine ← gets fun machine => machine
    if page.isSome || 1 < n || !machine.swapInitOk then return page
    else
      swapOut machine.checkMmStruct n
      allocPages n turns

/-! ## The system after the boot -/

/-- The machine, the pages handed out and not given back, and what the last call of
`alloc_pages` returned. -/
structure State where
  machine : Machine
  held : Finset Nat
  result : Option Nat

def State.heap (state : State) : Heap := ⟨state.machine.area, state.held⟩

inductive Event where
  | alloc (n : Nat)
  | free (base n : Nat)
  /-- A page is mapped at `la`, by `pgdir_alloc_page` or by `do_pgfault`. -/
  | mapSwappable (mm : Option Mm) (la page : Nat)
  /-- `mm_create` makes the list empty. -/
  | initMm
  | setCheckMm (mm : Option Mm)
  | swapInit (deviceSize : Nat)
  /-- Other code writes page tables. -/
  | tables (mem : Nat → Nat → Nat)

def run (state : State) (call : Call Machine Unit) : Option State :=
  match call state.machine with
  | some (.ok (), machine) => some { state with machine := machine }
  | _ => none

def step (turns : Nat) (state : State) : Event → Option State
  | .alloc n =>
    match allocPages n turns state.machine with
    | some (.ok page, machine) => some
      { machine := machine
        held := match page with
          | some p => state.held ∪ Finset.Ico p (p + n)
          | none => state.held
        result := page }
    | _ => none
  | .free base n => (defaultFreePages state.machine.area base n).map fun area =>
    { state with machine := { state.machine with area := area }, held := state.held \ Finset.Ico base (base + n) }
  | .mapSwappable mm la page => run state do
    fifoMapSwappable mm page
    modify fun machine => { machine with praVaddr := Function.update machine.praVaddr page la }
  | .initMm => run state fifoInitMm
  | .setCheckMm mm => some { state with machine := { state.machine with checkMmStruct := mm } }
  | .swapInit deviceSize => run state (swapInit deviceSize)
  | .tables mem => some { state with machine := { state.machine with mem := mem } }

end Ucore.AllocPages
