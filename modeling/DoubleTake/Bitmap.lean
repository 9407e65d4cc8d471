import Mathlib.Algebra.Group.Nat.Defs
import DoubleTake.Lib.Bits

/-! The bitmap of `bitmap.hh`: one bit for each item, 64 of them in a word. -/

namespace DoubleTake

abbrev WORDBITS : Nat := 64

/-- `WORDSIZE` of `bitmap.hh`, which `clearBits` multiplies a count of words by. -/
abbrev WORDSIZE : Nat := 64

/-- The words that `_start` points to. -/
abbrev Bitmap := Nat → BitVec 64

namespace Bitmap

/-- `on[i]`, the word whose only set bit is `i`. -/
def on (i : Nat) : BitVec 64 := 1#64 <<< i

/-- `off[i]`, the complement of `on[i]`. -/
def off (i : Nat) : BitVec 64 := ~~~ on i

def readWord (b : Bitmap) (wordIndex : Nat) : BitVec 64 := b wordIndex

/-- The word of an item and the item's place in it (`getIndexes`). -/
def getIndexes (item : Nat) : Nat × Nat := (item / WORDBITS, item % WORDBITS)

def getItemIndex (wordIndex bitIndex : Nat) : Nat := wordIndex * WORDBITS + bitIndex

/-- `checkSetBit`: set the bit, and say whether it was clear before. -/
def checkSetBit (b : Bitmap) (item : Nat) : Bool × Bitmap :=
  let (wordIndex, bitIndex) := getIndexes item
  let word := b.readWord wordIndex
  (word &&& on bitIndex == 0#64, Function.update b wordIndex (word ||| on bitIndex))

def clearBit (b : Bitmap) (item : Nat) : Bitmap :=
  let (wordIndex, bitIndex) := getIndexes item
  Function.update b wordIndex (b.readWord wordIndex &&& off bitIndex)

def isBitSet (b : Bitmap) (item : Nat) : Bool :=
  let (wordIndex, bitIndex) := getIndexes item
  b.readWord wordIndex &&& on bitIndex != 0#64

/-- `isBitSetOnWord` and `hasSetBit`. -/
def isBitSetOnWord (bitword : BitVec 64) (index : Nat) : Bool := bitword &&& on index != 0#64

/-- `clearBits`: `memset` over whole words. The byte count is the number of words times `WORDSIZE`, so
    eight words are cleared for each word of the range. -/
def clearBits (b : Bitmap) (item bits : Nat) : Option Bitmap :=
  let (firstWordIndex, firstBitIndex) := getIndexes item
  let (lastWordIndex, lastBitIndex) := getIndexes (item + bits)
  if firstBitIndex = 0 ∧ lastBitIndex = 0 then
    let size := (lastWordIndex - firstWordIndex) * WORDSIZE
    some fun i => if firstWordIndex ≤ i ∧ i < firstWordIndex + size / 8 then 0#64 else b i
  else
    -- assert(0)
    none

/-- The first byte of the bitmap that the `memset` of `clearBits` writes, and how many it writes. -/
def clearedBytes (item bits : Nat) : Nat × Nat :=
  ((getIndexes item).1 * 8, ((getIndexes (item + bits)).1 - (getIndexes item).1) * WORDSIZE)

/-- `WORDBITS - 2 - __builtin_clzl(word)`, in the arithmetic of `unsigned long`. -/
def getMsbIndex (word : BitVec 64) : Nat := (2 ^ 64 + WORDBITS - 2 - Bits.clzl word) % 2 ^ 64

/-- `__builtin_ffsl(word) - 1`, in the arithmetic of `unsigned long`. -/
def getLsbIndex (word : BitVec 64) : Nat := (2 ^ 64 + Bits.ffsl word - 1) % 2 ^ 64

/-- The first loop of `getLastBit`: down from `bitIndex` to the least significant bit of the word. -/
def getLastBitInWord (bitword : BitVec 64) (lsbIndex : Nat) : Nat → Option Nat
  | 0 => none
  | bitIndex + 1 =>
    if lsbIndex < bitIndex + 1 then
      if isBitSetOnWord bitword bitIndex then some bitIndex
      else getLastBitInWord bitword lsbIndex bitIndex
    else none

/-- The second loop of `getLastBit`: the words below `wordIndex`, the nearest first. -/
def getLastBitBelow (b : Bitmap) : Nat → Option Nat
  | 0 => none
  | wordIndex + 1 =>
    let bitword := b.readWord wordIndex
    if bitword ≠ 0#64 then some (getItemIndex wordIndex ((getMsbIndex bitword + 1) % 2 ^ 64))
    else getLastBitBelow b wordIndex

/-- `getLastBit`: the index that is stored, or `none` where the function returns false. -/
def getLastBit (b : Bitmap) (item : Nat) : Option Nat :=
  let (wordIndex, bitIndex) := getIndexes item
  let bitword := b.readWord wordIndex
  let found := if bitword ≠ 0#64 then getLastBitInWord bitword (getLsbIndex bitword) bitIndex else none
  match found with
  | some i => some (getItemIndex wordIndex i)
  | none => getLastBitBelow b wordIndex

/-- The loop over the bits of one word in `hasBitSet`. -/
def hasBitSetInWord (bitword : BitVec 64) (firstBitIndex lastBitIndex : Nat) : Bool :=
  (List.range (lastBitIndex - firstBitIndex)).any fun i => isBitSetOnWord bitword (firstBitIndex + i)

/-- `hasBitSet`. The loop over the words between the first and the last does not advance its index: it stops when
    the word after the first one has a bit set, and else never (`none`). -/
def hasBitSet (b : Bitmap) (item totalbits : Nat) : Option Bool :=
  let (firstWordIndex, firstBitIndex) := getIndexes item
  let (lastWordIndex, lastBitIndex) := getIndexes (item + totalbits)
  let bitword := b.readWord firstWordIndex
  if firstWordIndex = lastWordIndex then some (hasBitSetInWord bitword firstBitIndex lastBitIndex)
  else if getLsbIndex bitword ≥ firstBitIndex then some true
  else if firstWordIndex + 1 < lastWordIndex then
    if b.readWord (firstWordIndex + 1) ≠ 0#64 then some true else none
  else
    let bitword := b.readWord lastWordIndex
    some (decide (bitword ≠ 0#64 ∧ getMsbIndex bitword ≤ lastBitIndex))

end Bitmap

end DoubleTake
