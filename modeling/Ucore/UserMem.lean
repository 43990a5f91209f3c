import Ucore.Paging

/-! The checks that guard the arguments of system calls, `kern/mm/vmm.c`.
Addresses and sizes are 64-bit words. A load that the vmas of a process permit
gets its byte, through a page fault where the page is not there; any other load
of the kernel is a fault that nothing serves. -/
namespace Ucore.UserMem
open Paging

def kernbase : Nat := 0xFFFFFFFFC0020000
def kerntop : Nat := kernbase + 0x5E0000

structure VmFlags where
  read : Bool
  write : Bool
  exec : Bool
  stack : Bool
  deriving DecidableEq

structure Vma where
  vmStart : Nat
  vmEnd : Nat
  vmFlags : VmFlags
  deriving DecidableEq

/-- `mmapList` stands in the order of its links; the cache is `NULL` or one of them. -/
structure Mm where
  mmapList : List Vma
  mmapCache : Option Vma

def word (n : Nat) : Nat := n % 2 ^ 64

def Vma.holds (vma : Vma) (addr : Nat) : Bool := vma.vmStart ≤ addr && addr < vma.vmEnd

def findVma (mm : Mm) (addr : Nat) : Mm × Option Vma :=
  match (mm.mmapCache.filter (·.holds addr)).or (mm.mmapList.find? (·.holds addr)) with
  | some vma => ({ mm with mmapCache := some vma }, some vma)
  | none => (mm, none)

/-! ## Checks -/

def kernAccess (start finish : Nat) : Bool := kernbase ≤ start && start < finish && finish ≤ kerntop

/-- `vm_flags & (write ? VM_WRITE : VM_READ)`. -/
def Vma.grants (vma : Vma) (write : Bool) : Bool :=
  if write then vma.vmFlags.write else vma.vmFlags.read

/-- `none` is a scan that is not over after so many turns. -/
def checkLoop (finish : Nat) (write : Bool) : Nat → Mm → Nat → Option (Mm × Bool)
  | 0, _, _ => none
  | turns + 1, mm, start =>
    if start < finish then
      match findVma mm start with
      | (mm, none) => some (mm, false)
      | (mm, some vma) =>
        if start < vma.vmStart then some (mm, false)
        else if !vma.grants write then some (mm, false)
        else if write && vma.vmFlags.stack && start < vma.vmStart + pgsize then some (mm, false)
        else checkLoop finish write turns mm vma.vmEnd
    else some (mm, true)

/-- Every turn of the scan passes at least one byte. -/
def userMemCheck (mm : Option Mm) (addr len : Nat) (write : Bool) : Option (Option Mm × Bool) :=
  match mm with
  | some mm =>
    if !userAccess addr (word (addr + len)) then some (some mm, false)
    else (checkLoop (word (addr + len)) write (len + 1) mm addr).map fun (mm, ok) => (some mm, ok)
  | none => some (none, kernAccess addr (word (addr + len)))

/-! ## Copies -/

def readable (mm : Option Mm) (addr : Nat) : Bool :=
  match mm with
  | some mm => userbase ≤ addr && addr < usertop &&
      mm.mmapList.any fun vma => vma.holds addr && vma.grants false
  | none => kernbase ≤ addr && addr < kerntop

/-- What a load of the kernel gets out of the bytes of an address space, where it
has checked the `len` bytes from `start` on. `none` is a byte that is not checked
or a fault that nothing serves. -/
def loadByte (mm : Option Mm) (bytes : Nat → Nat) (start len addr : Nat) : Option Nat :=
  if start ≤ addr && addr < start + len && readable mm addr then some (bytes addr) else none

def strnlen (fetch : Nat → Option Nat) (s : Nat) : Nat → Option Nat
  | 0 => some 0
  | len + 1 => do
    let char ← fetch s
    if char = 0 then some 0 else (strnlen fetch (word (s + 1)) len).map (· + 1)

/-- Into a buffer of the kernel, from its byte `pos` on. -/
def memcpy (fetch : Nat → Option Nat) (dst : Nat → Nat) (pos src : Nat) : Nat → Option (Nat → Nat)
  | 0 => some dst
  | n + 1 => do
    let byte ← fetch src
    memcpy fetch (Function.update dst pos byte) (pos + 1) (word (src + 1)) n

/-- `dst` is a buffer of the kernel, by its bytes. -/
def copyFromUser (mm : Option Mm) (bytes dst : Nat → Nat) (src len : Nat) (writable : Bool) :
    Option (Option Mm × (Nat → Nat) × Bool) := do
  let (mm, ok) ← userMemCheck mm src len writable
  if !ok then some (mm, dst, false)
  else
    let dst ← memcpy (loadByte mm bytes src len) dst 0 src len
    some (mm, dst, true)

/-- `user` are the bytes of the address space, `src` those of the kernel from the source on. -/
def copyToUser (mm : Option Mm) (user src : Nat → Nat) (dst len : Nat) :
    Option (Option Mm × (Nat → Nat) × Bool) := do
  let (mm, ok) ← userMemCheck mm dst len true
  if !ok then some (mm, user, false)
  else some (mm, (fun addr => if dst ≤ addr && addr < dst + len then src (addr - dst) else user addr), true)

def rounddown (a n : Nat) : Nat := a - a % n

def copyStringLoop (bytes : Nat → Nat) :
    Nat → Option Mm → (Nat → Nat) → Nat → Nat → Nat → Nat → Option (Option Mm × (Nat → Nat) × Bool)
  | 0, _, _, _, _, _, _ => none
  | turns + 1, mm, dst, pos, src, part, maxn => do
    let part := if maxn < part then maxn else part
    let (mm, ok) ← userMemCheck mm src part false
    if !ok then some (mm, dst, false)
    else
      let fetch := loadByte mm bytes src part
      let alen ← strnlen fetch src part
      if alen < part then
        let dst ← memcpy fetch dst pos src (alen + 1)
        some (mm, dst, true)
      else if part = maxn then some (mm, dst, false)
      else
        let dst ← memcpy fetch dst pos src part
        copyStringLoop bytes turns mm dst (pos + part) (word (src + part)) pgsize (maxn - part)

/-- `dst` is the buffer by its bytes. Every turn uses up at least one byte of `maxn`. -/
def copyString (mm : Option Mm) (bytes dst : Nat → Nat) (src maxn : Nat) :
    Option (Option Mm × (Nat → Nat) × Bool) :=
  copyStringLoop bytes (maxn + 1) mm dst 0 src
    (word (rounddown (word (src + pgsize)) pgsize + 2 ^ 64 - src)) maxn

end Ucore.UserMem
