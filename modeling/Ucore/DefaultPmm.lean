import Ucore.ListHeader

/-! The first-fit page manager of `kern/mm/default_pmm.c` at the level of its
links. A page is its index in `pages`, so pointer comparison and pointer
arithmetic on `struct Page *` are comparison and arithmetic of indices. An
operation returns `none` when an assertion fails or a walk of the list does
not end: `next` is not written while the list is searched, so a search that
has taken more steps than there are pages has met a node twice and never ends. -/
namespace Ucore.DefaultPmm
open Ucore.Ring ListHeader

/-- The fields of `struct Page` the manager uses. `flags` is its two bits. -/
structure Page where
  ref : Int
  pgReserved : Bool
  pgProperty : Bool
  property : Nat

/-- The list entries of `free_area` and of every page. -/
inductive Node where
  | freeList
  | pageLink (page : Nat)
  deriving DecidableEq

/-- `pages`, the free list's links and `nr_free`. -/
structure Area where
  npage : Nat
  pages : Nat → Page
  links : Links Node
  nrFree : Nat

/-- Conversion to `unsigned int`. -/
def uint (n : Nat) : Nat := n % 2 ^ 32

def defaultInit (area : Area) : Area :=
  { area with links := listInit area.links .freeList, nrFree := 0 }

/-- The loop of `default_init_memmap` over the pages of the new range. -/
def resetReserved : Nat → Nat → (Nat → Page) → Option (Nat → Page)
  | 0, _, pages => some pages
  | n + 1, p, pages =>
    if (pages p).pgReserved then
      resetReserved n (p + 1) (Function.update pages p ⟨0, false, false, 0⟩)
    else none

/-- The loop of `default_free_pages` over the pages given back. -/
def resetAllocated : Nat → Nat → (Nat → Page) → Option (Nat → Page)
  | 0, _, pages => some pages
  | n + 1, p, pages =>
    if !(pages p).pgReserved && !(pages p).pgProperty then
      resetAllocated n (p + 1) (Function.update pages p ⟨0, false, false, (pages p).property⟩)
    else none

/-- The search for a block's place. Only the first branch leaves the loop;
after `list_add` at the tail the walk goes on from the same `le`. -/
def insertLoop (base : Nat) : Nat → Links Node → Node → Option (Links Node)
  | 0, _, _ => none
  | fuel + 1, links, le =>
    match listNext links le with
    | .freeList => some links
    | .pageLink page =>
      if base < page then
        some (listAddBefore links (.pageLink page) (.pageLink base))
      else if listNext links (.pageLink page) = .freeList then
        insertLoop base fuel (listAdd links (.pageLink page) (.pageLink base)) (.pageLink page)
      else insertLoop base fuel links (.pageLink page)

/-- The part `default_init_memmap` and `default_free_pages` have in common. -/
def insertBlock (npage : Nat) (links : Links Node) (base : Nat) : Option (Links Node) :=
  if listEmpty links .freeList then some (listAdd links .freeList (.pageLink base))
  else insertLoop base (npage + 2) links .freeList

/-- `base->property = n; SetPageProperty(base)`. -/
def markBlock (pages : Nat → Page) (base size : Nat) : Nat → Page :=
  Function.update pages base { pages base with property := size, pgProperty := true }

def clearPageProperty (pages : Nat → Page) (page : Nat) : Nat → Page :=
  Function.update pages page { pages page with pgProperty := false }

def defaultInitMemmap (area : Area) (base n : Nat) : Option Area :=
  if n = 0 then none
  else do
    let pages ← resetReserved n base area.pages
    let links ← insertBlock area.npage area.links base
    return { area with
      pages := markBlock pages base (uint n)
      links := links
      nrFree := uint (area.nrFree + n) }

/-- The first listed block of at least `n` pages. -/
def findBlock (area : Area) (n : Nat) : Nat → Node → Option (Option Nat)
  | 0, _ => none
  | fuel + 1, le =>
    match listNext area.links le with
    | .freeList => some none
    | .pageLink page =>
      if n ≤ (area.pages page).property then some (some page)
      else findBlock area n fuel (.pageLink page)

/-- Takes the first `n` pages of a listed block, leaving the rest listed. -/
def takeBlock (area : Area) (page n : Nat) : Area :=
  let prev := listPrev area.links (.pageLink page)
  let links := listDel area.links (.pageLink page)
  let size := (area.pages page).property
  if n < size then
    { area with
      pages := clearPageProperty (markBlock area.pages (page + n) (size - n)) page
      links := listAdd links prev (.pageLink (page + n))
      nrFree := area.nrFree - n }
  else
    { area with
      pages := clearPageProperty area.pages page
      links := links
      nrFree := area.nrFree - n }

def defaultAllocPages (area : Area) (n : Nat) : Option (Option Nat × Area) :=
  if n = 0 then none
  else if area.nrFree < n then some (none, area)
  else do
    let found ← findBlock area n (area.npage + 2) .freeList
    match found with
    | none => return (none, area)
    | some page => return (some page, takeBlock area page n)

/-- Adds `size` pages to the block at `p` and unlists the block at `q`. -/
def absorb (area : Area) (p q : Nat) (size : Nat) : Area :=
  let grown := Function.update area.pages p
    { area.pages p with property := uint ((area.pages p).property + size) }
  { area with
    pages := clearPageProperty grown q
    links := listDel area.links (.pageLink q) }

/-- The merge with the block before `base`; returns the block `base` is now in. -/
def mergePrev (area : Area) (base : Nat) : Area × Nat :=
  match listPrev area.links (.pageLink base) with
  | .freeList => (area, base)
  | .pageLink p =>
    if p + (area.pages p).property = base then
      (absorb area p base (area.pages base).property, p)
    else (area, base)

/-- The merge with the block after `base`. -/
def mergeNext (area : Area) (base : Nat) : Area :=
  match listNext area.links (.pageLink base) with
  | .freeList => area
  | .pageLink p =>
    if base + (area.pages base).property = p then absorb area base p (area.pages p).property
    else area

def defaultFreePages (area : Area) (base n : Nat) : Option Area :=
  if n = 0 then none
  else do
    let pages ← resetAllocated n base area.pages
    let links ← insertBlock area.npage area.links base
    let listed := { area with
      pages := markBlock pages base (uint n)
      links := links
      nrFree := uint (area.nrFree + n) }
    let (merged, base) := mergePrev listed base
    return mergeNext merged base

end Ucore.DefaultPmm
