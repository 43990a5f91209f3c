import Ucore.Runs

/-! The interrupt controller, `kern/driver/plic.c`, the dispatch of its interrupts
in `kern/trap/trap.c` and the registrations of `kern/driver/cnn.c`. The table is
static in `plic.h`, so that each file which includes it has a table of its own.
No callback touches a table or the flag, and the model ends where one begins. -/
namespace Ucore.Plic

variable {τ : Type}

def irqnUarthsInterrupt : Nat := 33
def irqnDma5Interrupt : Nat := 32
def irqnDma0Interrupt : Nat := 27
def irqnAiInterrupt : Nat := 25
def irqnMax : Nat := 65

inductive Callback where
  | cnnInputDone
  | cnnContinue
  | cnnRunAllDone
  | aiDone
  deriving DecidableEq

def cnnInputDoneFlag : Int := 1
def cnnContinueFlag : Int := 2
def cnnRunAllDoneFlag : Int := 3
def aiDoneFlag : Int := 4

/-- The `switch` over the callback flag. -/
def callback (flag : Int) : Option Callback :=
  if flag = cnnContinueFlag then some .cnnContinue
  else if flag = cnnInputDoneFlag then some .cnnInputDone
  else if flag = cnnRunAllDoneFlag then some .cnnRunAllDone
  else if flag = aiDoneFlag then some .aiDone
  else none

/-- `plicInstance` is the table of `plic.c` and `trapInstance` that of `trap.c`. -/
structure Controller (τ : Type) where
  plicInstance : Fin irqnMax → Option τ
  trapInstance : Fin irqnMax → Option τ
  plicCallbackFlag : Int

def plicInit (plic : Controller τ) : Controller τ := { plic with plicInstance := fun _ => none }

/-- After the zeroed memory of the kernel image and `plic_init`. -/
def boot : Controller τ := plicInit ⟨fun _ => none, fun _ => none, 0⟩

def plicIrqRegister (plic : Controller τ) (irq : Fin irqnMax) (callbackFlag : Int) (ctx : Option τ) : Controller τ :=
  { plic with plicInstance := Function.update plic.plicInstance irq ctx, plicCallbackFlag := callbackFlag }

/-- What an interrupt runs. -/
inductive Action (τ : Type) where
  | devIntr
  | run (callback : Callback) (ctx : Option τ)
  deriving DecidableEq

def trapInExt (plic : Controller τ) (irq : Fin irqnMax) : Option (Action τ) :=
  if irq = irqnUarthsInterrupt then some .devIntr
  else if irq = irqnDma0Interrupt then none
  else if irq = irqnAiInterrupt ∨ irq = irqnDma5Interrupt then
    (callback plic.plicCallbackFlag).map fun callback => .run callback (plic.trapInstance irq)
  else none

/-! ## The registrations of a network -/

/-- The interrupt of one of the six channels. -/
def dmaInterrupt (dmaCh : Fin 6) : Fin irqnMax := ⟨irqnDma0Interrupt + dmaCh, by simp only [irqnDma0Interrupt, irqnMax]; omega⟩

def cnnRunDmaInput (plic : Controller τ) (dmaCh : Fin 6) (cb : Int) (task : Option τ) : Controller τ :=
  plicIrqRegister plic (dmaInterrupt dmaCh) cb task

def cnnRunDmaOutput (plic : Controller τ) (dmaCh : Fin 6) (cb : Int) (task : Option τ) : Controller τ :=
  plicIrqRegister plic (dmaInterrupt dmaCh) cb task

def cnnRunDmaInputDonePushLayers (plic : Controller τ) (dmaCh : Fin 6) (task : Option τ) : Controller τ :=
  cnnRunDmaOutput plic dmaCh cnnRunAllDoneFlag task

/-- Up to the `do_sleep` that waits for the input to arrive. -/
def cnnRunInput (plic : Controller τ) (dmaCh : Fin 6) (task : τ) : Controller τ :=
  let plic := plicIrqRegister plic ⟨irqnAiInterrupt, by decide⟩ cnnContinueFlag (some task)
  cnnRunDmaInput plic dmaCh cnnInputDoneFlag (some task)

def cnnRun (plic : Controller τ) (dmaCh : Fin 6) (task : τ) : Controller τ :=
  cnnRunDmaInputDonePushLayers (cnnRunInput plic dmaCh task) dmaCh (some task)

/-! ## Registrations and interrupts in any order -/

inductive Line where
  | ai
  | dma5
  deriving DecidableEq

def Line.irq : Line → Fin irqnMax
  | .ai => ⟨irqnAiInterrupt, by decide⟩
  | .dma5 => ⟨irqnDma5Interrupt, by decide⟩

inductive Event (τ : Type) where
  | register (line : Line) (callbackFlag : Int) (ctx : Option τ)
  | interrupt (line : Line)

/-- The controller, the most recent registration of each line and the flag of the
most recent registration on any line. -/
structure Tracked (τ : Type) where
  plic : Controller τ
  registered : Line → Option (Int × Option τ)
  latest : Option Int

def fresh : Tracked τ := ⟨boot, fun _ => none, none⟩

def step (state : Tracked τ) : Event τ → Option (Tracked τ)
  | .register line flag ctx => some
    { plic := plicIrqRegister state.plic line.irq flag ctx
      registered := Function.update state.registered line (some (flag, ctx))
      latest := some flag }
  | .interrupt _ => some state

/-- What an interrupt should run: the line's callback, if it has one, on the line's context. -/
def wanted (state : Tracked τ) (line : Line) : Option (Action τ) := do
  let (flag, ctx) ← state.registered line
  let callback ← callback flag
  return .run callback ctx

end Ucore.Plic
