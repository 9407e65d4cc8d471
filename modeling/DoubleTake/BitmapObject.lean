import DoubleTake.Bitmap
import DoubleTake.Defines

/-! The class `bitmap` of `bitmap.hh` with its members: the masks come from tables, the indexes are checked, and the buffer that
    `_start` points to has an end. -/

namespace DoubleTake

/-- An assertion fails, or a word is read or written that does not lie in the buffer. -/
inductive BitmapFault where
  | assertion
  | outside (wordIndex : Nat)
  deriving DecidableEq, Repr

/-- The members; `bytes` is the size of the buffer. -/
structure BitmapObject where
  on : Nat → BitVec 64
  off : Nat → BitVec 64
  start : Bitmap
  bytes : Nat
  words : Nat
  elements : Nat

namespace BitmapObject

/-- One round of the loop of `initialize`. -/
def initMask (b : BitmapObject) (i : Nat) : BitmapObject :=
  let b := { b with on := Function.update b.on i (1#64 <<< i) }
  { b with off := Function.update b.off i (~~~ b.on i) }

/-- After `initialize` with a buffer of so many bytes. -/
def initialized (b : BitmapObject) (addr : Bitmap) (bytes elements words : Nat) : BitmapObject :=
  (List.range WORDBITS).foldl initMask { b with start := addr, bytes := bytes, elements := elements, words := words }

/-- `readWord` and `getWord`: the word that is read, or the one that is written to next. -/
def getWord (b : BitmapObject) (wordIndex : Nat) : Except BitmapFault (BitVec 64) :=
  if ¬ wordIndex ≤ b.words then .error .assertion
  else if wordIndex * 8 + 8 ≤ b.bytes then .ok (b.start wordIndex)
  else .error (.outside wordIndex)

def setWord (b : BitmapObject) (wordIndex : Nat) (word : BitVec 64) : BitmapObject :=
  { b with start := Function.update b.start wordIndex word }

/-- How each operation on an item begins: the item is checked, and its word and bit are handed on. -/
def onItem {α : Type} (b : BitmapObject) (item : Nat) (f : Nat → Nat → Except BitmapFault α) : Except BitmapFault α :=
  if ¬ item ≤ b.elements then .error .assertion
  else
    let (wordIndex, bitIndex) := Bitmap.getIndexes item
    f wordIndex bitIndex

def setBitAt (b : BitmapObject) (wordIndex bitIndex : Nat) : Except BitmapFault BitmapObject := do
  let word ← b.getWord wordIndex
  return b.setWord wordIndex (word ||| b.on bitIndex)

def checkSetBitAt (b : BitmapObject) (wordIndex bitIndex : Nat) : Except BitmapFault (Bool × BitmapObject) := do
  let word ← b.getWord wordIndex
  return (word &&& b.on bitIndex == 0#64, b.setWord wordIndex (word ||| b.on bitIndex))

def clearBitAt (b : BitmapObject) (wordIndex bitIndex : Nat) : Except BitmapFault BitmapObject := do
  let word ← b.getWord wordIndex
  return b.setWord wordIndex (word &&& b.off bitIndex)

def isBitSetAt (b : BitmapObject) (wordIndex bitIndex : Nat) : Except BitmapFault Bool := do
  let word ← b.getWord wordIndex
  return word &&& b.on bitIndex != 0#64

def setBit (b : BitmapObject) (item : Nat) : Except BitmapFault BitmapObject := b.onItem item b.setBitAt
def checkSetBit (b : BitmapObject) (item : Nat) : Except BitmapFault (Bool × BitmapObject) := b.onItem item b.checkSetBitAt
def clearBit (b : BitmapObject) (item : Nat) : Except BitmapFault BitmapObject := b.onItem item b.clearBitAt
def isBitSet (b : BitmapObject) (item : Nat) : Except BitmapFault Bool := b.onItem item b.isBitSetAt

def isBitSetOnWord (b : BitmapObject) (bitword : BitVec 64) (index : Nat) : Bool := bitword &&& b.on index != 0#64

/-- The first loop of `getLastBit`, with what it has stored when it ends. -/
def lastBitInWord (b : BitmapObject) (bitword : BitVec 64) (wordIndex lsbIndex lastBitIndex : Nat) : Nat → Bool × Nat
  | 0 => (false, lastBitIndex)
  | bitIndex + 1 =>
    if bitIndex + 1 > lsbIndex then
      if b.isBitSetOnWord bitword bitIndex then (true, Bitmap.getItemIndex wordIndex bitIndex)
      else b.lastBitInWord bitword wordIndex lsbIndex lastBitIndex bitIndex
    else (false, lastBitIndex)

/-- The second loop of `getLastBit`. -/
def lastBitBelow (b : BitmapObject) (lastBitIndex : Nat) : Nat → Except BitmapFault (Bool × Nat)
  | 0 => .ok (false, lastBitIndex)
  | wordIndex + 1 => do
    let bitword ← b.getWord wordIndex
    if bitword ≠ 0#64 then
      let bitIndex := Bitmap.getMsbIndex bitword
      return (true, Bitmap.getItemIndex wordIndex ((bitIndex + 1) % 2 ^ 64))
    else b.lastBitBelow lastBitIndex wordIndex

/-- The part of `getLastBit` that looks at the word of the item. -/
def lastBitOfWord (b : BitmapObject) (bitword : BitVec 64) (wordIndex bitIndex lastBitIndex : Nat) : Bool × Nat :=
  if bitword ≠ 0#64 then
    let lsbIndex := Bitmap.getLsbIndex bitword
    if bitIndex > lsbIndex then b.lastBitInWord bitword wordIndex lsbIndex lastBitIndex bitIndex else (false, lastBitIndex)
  else (false, lastBitIndex)

/-- `getLastBit`: what it returns, and what `*lastBitIndex` holds then. -/
def getLastBit (b : BitmapObject) (item lastBitIndex : Nat) : Except BitmapFault (Bool × Nat) := do
  let (wordIndex, bitIndex) := Bitmap.getIndexes item
  let bitword ← b.getWord wordIndex
  let (hasLastBit, lastBitIndex) := b.lastBitOfWord bitword wordIndex bitIndex lastBitIndex
  if ¬ hasLastBit then b.lastBitBelow lastBitIndex wordIndex else return (hasLastBit, lastBitIndex)

/-! ### Operations on items -/

inductive Op where
  | setBit (item : Nat)
  | checkSetBit (item : Nat)
  | clearBit (item : Nat)
  | isBitSet (item : Nat)
  deriving DecidableEq, Repr

def Op.item : Op → Nat
  | .setBit item | .checkSetBit item | .clearBit item | .isBitSet item => item

/-- An operation with what it answers, if it does. -/
def exec (b : BitmapObject) : Op → Except BitmapFault (Option Bool × BitmapObject)
  | .setBit item => do return (none, ← b.setBit item)
  | .checkSetBit item => do
    let (result, b) ← b.checkSetBit item
    return (some result, b)
  | .clearBit item => do return (none, ← b.clearBit item)
  | .isBitSet item => do return (some (← b.isBitSet item), b)

/-- The answers to a sequence of operations, and the bitmap after it. -/
def execAll (b : BitmapObject) : List Op → Except BitmapFault (List (Option Bool) × BitmapObject)
  | [] => .ok ([], b)
  | op :: ops => do
    let (answer, b) ← b.exec op
    let (answers, b) ← b.execAll ops
    return (answer :: answers, b)

/-! ### The buffers of the callers -/

abbrev BYTEBITS : Nat := 8

/-- `sentinelmap::getBytes`, on the number of elements as an `int`. -/
def getBytes (elements : Nat) : Int := (toInt32 elements).tdiv BYTEBITS

/-- The bitmap of the unit test, over a buffer with any content. -/
def ofTest (b : BitmapObject) (buf : Bitmap) (n : Nat) : BitmapObject :=
  let size := (getBytes n).toNat
  b.initialized buf size n size

/-- The bitmap of `sentinelmap::initialize`. -/
def ofSentinelmap (b : BitmapObject) (buf : Bitmap) (size : Nat) : BitmapObject :=
  let elements := size >>> 3
  let totalBytes := (getBytes elements).toNat
  b.initialized buf totalBytes elements (elements / 8)

end BitmapObject

end DoubleTake
