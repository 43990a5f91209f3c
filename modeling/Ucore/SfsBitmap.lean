import Ucore.KernelHeap

/-! The bitmap of free blocks, `kern/fs/sfs/bitmap.c`. A set bit is a free
index; the bits of the last word from `nbits` on are cleared when the bitmap is
made and stay so. -/
namespace Ucore.SfsBitmap
open Call KernelHeap

def wordBits : Nat := 32

def eNoMem : Int := 4

def uint32 (n : Nat) : Nat := n % 2 ^ 32

structure Bitmap where
  nbits : Nat
  nwords : Nat
  map : List (BitVec 32)
  deriving DecidableEq

/-- `1 << offset`, as a word. -/
def mask (offset : Nat) : BitVec 32 := 1#32 <<< offset

/-- `ROUNDUP_DIV`; the sum is one of 64-bit numbers. -/
def nwordsFor (nbits : Nat) : Nat := uint32 ((nbits + (wordBits - 1)) / wordBits)

/-- The word behind the leftover bits that are marked in use, `more` of them from `overbits` on. -/
def markOver (word : BitVec 32) (overbits : Nat) : Nat → BitVec 32
  | 0 => word
  | more + 1 => markOver (word ^^^ mask overbits) (overbits + 1) more

def sizeofBitmap : Nat := 16

/-- The bitmap with the objects it is in: the structure and its map. -/
def bitmapCreate (nbits : BitVec 32) : Call Heap (Option (Bitmap × Nat × Nat)) := do
  assert (nbits ≠ 0 && nbits.toNat < (nbits.toNat + wordBits) % 2 ^ 64)
  match ← kmalloc sizeofBitmap with
  | none => return none
  | some object =>
    let nwords := nwordsFor nbits.toNat
    match ← kmalloc (4 * nwords) with
    | none =>
      kfree object
      return none
    | some mapObject =>
      inside mapObject (4 * nwords)
      let map := List.replicate nwords (BitVec.allOnes 32)
      if nbits.toNat ≠ nwords * wordBits then
        let ix := nwords - 1
        let overbits := nbits.toNat - ix * wordBits
        assert (nbits.toNat / wordBits = ix)
        assert (0 < overbits && overbits < wordBits)
        assert (ix < map.length)
        let word := markOver (BitVec.allOnes 32) overbits (wordBits - overbits)
        return some (⟨nbits.toNat, nwords, map.set ix word⟩, object, mapObject)
      else return some (⟨nbits.toNat, nwords, map⟩, object, mapObject)

/-- The first set bit of a word, `more` bits left from `offset` on. -/
def scanWord (word : BitVec 32) (offset : Nat) : Nat → Option Nat
  | 0 => none
  | more + 1 => if word &&& mask offset ≠ 0 then some offset else scanWord word (offset + 1) more

/-- The loop over the words, `more` of them left from `ix` on. -/
def allocLoop (ix : Nat) : Nat → Call Bitmap Nat
  | 0 => fail (-eNoMem)
  | more + 1 => do
    let bitmap ← gets fun bitmap => bitmap
    match bitmap.map[ix]? with
    | none => stop
    | some word =>
      if word ≠ 0 then
        match scanWord word 0 wordBits with
        | none => stop
        | some offset =>
          modify fun bitmap => { bitmap with map := bitmap.map.set ix (word ^^^ mask offset) }
          return uint32 (ix * wordBits + offset)
      else allocLoop (ix + 1) more

def bitmapAlloc : Call Bitmap Nat := do
  let bitmap ← gets fun bitmap => bitmap
  allocLoop 0 bitmap.nwords

/-- The index of the word and the word itself. -/
def bitmapTranslate (index : Nat) : Call Bitmap (Nat × BitVec 32) := do
  let bitmap ← gets fun bitmap => bitmap
  assert (index < bitmap.nbits)
  match bitmap.map[index / wordBits]? with
  | none => stop
  | some word => return (index / wordBits, word)

def bitmapTest (index : Nat) : Call Bitmap Bool := do
  let (_, word) ← bitmapTranslate index
  return word &&& mask (index % wordBits) ≠ 0

def bitmapFree (index : Nat) : Call Bitmap Unit := do
  let (ix, word) ← bitmapTranslate index
  assert (word &&& mask (index % wordBits) = 0)
  modify fun bitmap => { bitmap with map := bitmap.map.set ix (word ||| mask (index % wordBits)) }

/-- Frees the map and the structure. -/
def bitmapDestroy (object mapObject : Nat) : Call Heap Unit := do
  kfree mapObject
  kfree object

end Ucore.SfsBitmap
