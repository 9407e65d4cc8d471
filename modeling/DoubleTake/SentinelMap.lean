import DoubleTake.Lib.Bytes
import DoubleTake.Bitmap
import DoubleTake.Defines

/-! The object header, the watchpoint list and the sentinel map: how the words around an object are marked,
    checked and scanned (`objectheader.hh`, `watchpoint.hh`, `sentinelmap.hh`). -/

namespace DoubleTake

/-! ### The object header

The header takes the 16 bytes before the object: block size, object size, and the first sentinel. -/

namespace ObjectHeader

def headerSize : Nat := 16

def getSize (m : Mem) (ptr : Nat) : Nat := m.read (ptr - 16) 4

def getObjectSize (m : Mem) (ptr : Nat) : Nat := m.read (ptr - 12) 4

def setObjectSize (m : Mem) (ptr sz : Nat) : Mem := m.write (ptr - 12) 4 sz

def setObjectFree (m : Mem) (ptr : Nat) : Mem := setObjectSize m ptr 0

def isGoodObject (m : Mem) (ptr : Nat) : Bool := m.read (ptr - 8) 8 == SENTINEL_WORD

/-- The constructor, placed at the start of a raw block. -/
def construct (m : Mem) (raw sz : Nat) : Mem :=
  ((m.write raw 4 sz).write (raw + 4) 4 0).write (raw + 8) 8 SENTINEL_WORD

end ObjectHeader

/-! ### Watchpoints -/

structure FaultyObject where
  objtype : FaultyObjectType
  faultyaddr : Nat
  objectstart : Nat
  faultyvalue : Nat
  deriving DecidableEq, Repr

/-- `addWatchpoint`: there is room for `MAX_WATCHPOINTS` of them. -/
def addWatchpoint (wp : List FaultyObject) (addr value : Nat) (objtype : FaultyObjectType) (objectstart : Nat) :
    List FaultyObject :=
  if wp.length < MAX_WATCHPOINTS then wp ++ [⟨objtype, addr, objectstart, value⟩] else wp

def hasToRollback (wp : List FaultyObject) : Bool := 0 < wp.length

/-! ### The map -/

/-- The heap words, the bitmap that marks the sentinels among them, and the watchpoints that the checks add. -/
structure SentinelMap where
  mem : Mem
  bitmap : Bitmap
  wp : List FaultyObject

namespace SentinelMap

variable (s : SentinelMap)

/-- The value of the word at an address. -/
def word (addr : Nat) : Nat := s.mem.read addr 8

/-- The bit of the word that an address of the heap lies in. -/
def getIndex (addr : Nat) : Nat := (addr - USER_HEAP_BASE) / WORD_SIZE

def getBitSize (size : Nat) : Nat := size / WORD_SIZE

def getBytes (elements : Nat) : Nat := elements / 8

/-- `_elements`: the map is set up over the whole heap, one bit for each word. -/
def elements : Nat := USER_HEAP_SIZE / WORD_SIZE

/-- `_totalBytes`, which are allocated for the bitmap. -/
def totalBytes : Nat := getBytes elements

def getHeapAddressFromItem (index : Nat) : Nat := USER_HEAP_BASE + index * WORD_SIZE

def getHeapAddressFromWordIndex (index : Nat) : Nat := USER_HEAP_BASE + index * WORDBITS * WORD_SIZE

def isSet (addr : Nat) : Bool := s.bitmap.isBitSet (getIndex addr)

def tryToSet (addr : Nat) : SentinelMap := { s with bitmap := (s.bitmap.checkSetBit (getIndex addr)).2 }

def clear (addr : Nat) : SentinelMap := { s with bitmap := s.bitmap.clearBit (getIndex addr) }

def cleanup (start size : Nat) : Option SentinelMap :=
  (s.bitmap.clearBits (getIndex start) (getBitSize size)).map fun b => { s with bitmap := b }

/-- All that `cleanup` clears is in the bitmap. -/
def ClearsInside (start size : Nat) : Prop :=
  (Bitmap.clearedBytes (getIndex start) (getBitSize size)).1 + (Bitmap.clearedBytes (getIndex start) (getBitSize size)).2 ≤ totalBytes

instance (start size : Nat) : Decidable (ClearsInside start size) := inferInstanceAs (Decidable (_ ≤ _))

/-- A word that the allocator stores. -/
def store (addr value : Nat) : SentinelMap := { s with mem := s.mem.write addr WORD_SIZE value }

def setSentinelAt (ptr : Nat) : SentinelMap := (s.store ptr SENTINEL_WORD).tryToSet ptr

def markSentinelAt (ptr : Nat) : SentinelMap := s.tryToSet ptr

def clearSentinelAt (ptr : Nat) : SentinelMap := s.clear ptr

/-- The two sentinels of a block: in front of the object and after the block. -/
def setupSentinels (ptr objectsize : Nat) : SentinelMap :=
  let sentinelFirst := ptr - SENTINEL_SIZE
  let sentinelLast := ptr + objectsize
  (((s.store sentinelFirst SENTINEL_WORD).store sentinelLast SENTINEL_WORD).tryToSet sentinelFirst).tryToSet sentinelLast

/-- True when the word is no longer a sentinel. -/
def checkSentinel (ptr : Nat) : Bool := s.word ptr != SENTINEL_WORD

def addWatchpoint (addr : Nat) (objtype : FaultyObjectType) (objectstart : Nat) : SentinelMap :=
  { s with wp := DoubleTake.addWatchpoint s.wp addr (s.word addr) objtype objectstart }

/-- The bytes from `p` to the end of its word, `setBytes` of them, as `setSentinels` fills them: true when they
    are not as it left them. -/
def checkMagicBytes (p setBytes : Nat) : Bool :=
  if setBytes > 1 ∧ (s.mem p).toNat = setBytes - 1 then
    (List.range (setBytes - 1)).any fun i => s.mem (p + (i + 1)) != MAGIC_BYTE_NOT_ALIGNED
  else if setBytes = 1 then s.mem p != MAGIC_BYTE_NOT_ALIGNED
  else true

/-- `checkObjectOverflow`: whether the guard behind the object is damaged. With `cleanSentinels` the bits of the
    guard words are cleared on the way. -/
def checkObjectOverflow (ptr blockSize sz : Nat) (cleanSentinels : Bool) : Bool × SentinelMap :=
  let offset := (2 ^ 64 + blockSize - sz) % 2 ^ 64
  let p := ptr + sz
  let nonAlignedBytes := sz % WORD_SIZE
  if nonAlignedBytes = 0 then
    let hasOverflow := s.checkSentinel p
    let s := if cleanSentinels then s.clear p else s
    (hasOverflow, if hasOverflow then s.addWatchpoint p .overflow ptr else s)
  else
    let startp := p - nonAlignedBytes
    let setBytes := WORD_SIZE - nonAlignedBytes
    let hasOverflow := s.checkMagicBytes p setBytes
    let nextp := startp + WORD_SIZE
    -- The word after the partial one is a guard too when the block reaches beyond it.
    let hasOverflowNext := decide (offset > WORD_SIZE) && s.checkSentinel nextp
    let s := if offset > WORD_SIZE ∧ cleanSentinels then s.clear nextp else s
    let s := if hasOverflowNext then s.addWatchpoint nextp .overflow ptr else s
    let s := if cleanSentinels then s.clear startp else s
    (hasOverflow || hasOverflowNext, if hasOverflow then s.addWatchpoint startp .overflow ptr else s)

/-! ### The scan -/

/-- The loop of `isCorruptedSentinel`, downwards from the address `a - 1`: how many magic bytes it counts, and the
    byte it stops at. -/
def countMagicBytes (m : Mem) : Nat → Nat × UInt8
  | 0 => (0, 0)
  | a + 1 =>
    if m a = MAGIC_BYTE_NOT_ALIGNED then
      let (magicBytesSize, stop) := countMagicBytes m a
      (magicBytesSize + 1, stop)
    else (0, m a)

def isCorruptedSentinel (addr : Nat) : Bool :=
  let (magicBytesSize, stop) := countMagicBytes s.mem (addr + WORD_SIZE)
  if magicBytesSize = 0 then true
  else decide (stop.toNat ≠ magicBytesSize ∧ magicBytesSize ≠ 1)

/-- The loop of `findObjectStartAddr`: every round goes to a lower item, so `fuel` rounds are enough for the items
    up to `fuel`. -/
def findObjectStartFrom : Nat → Nat → Option Nat
  | 0, _ => none
  | fuel + 1, item =>
    match s.bitmap.getLastBit item with
    | none => none
    | some startIndex =>
      let canaryAddr := getHeapAddressFromItem startIndex
      if s.word canaryAddr = SENTINEL_WORD then some (canaryAddr + SENTINEL_SIZE)
      else if s.word canaryAddr = MEMALIGN_SENTINEL_WORD then findObjectStartFrom fuel startIndex
      else none

/-- `findObjectStartAddr`: the start that is stored, or `none` where the function returns false. -/
def findObjectStartAddr (addr : Nat) : Option Nat := s.findObjectStartFrom (getIndex addr) (getIndex addr)

/-- A word that holds one of the two preset sentinels. -/
def isPreset (addr : Nat) : Bool := s.word addr == SENTINEL_WORD || s.word addr == MEMALIGN_SENTINEL_WORD

/-- What `checkIntegrityOnBMW` carries from bit to bit. -/
structure Scan where
  checkNonAligned : Bool
  hasCorrupted : Bool
  map : SentinelMap

/-- The body of the loop of `checkIntegrityOnBMW` for the bit `i` of the bitmap word `wordIndex`. -/
def checkIntegrityOnBit (bits : BitVec 64) (wordIndex : Nat) (c : Scan) (i : Nat) : Scan :=
  let addr := getHeapAddressFromWordIndex wordIndex + i * WORD_SIZE
  if Bitmap.isBitSetOnWord bits i ∧ ¬ c.map.isPreset addr then
    let checkNonAligned :=
      if i + 1 < WORDBITS then c.checkNonAligned || Bitmap.isBitSetOnWord bits (i + 1)
      else Bitmap.isBitSetOnWord (c.map.bitmap.readWord (wordIndex + 1)) 0
    let isBadSentinel := if checkNonAligned then c.map.isCorruptedSentinel addr else true
    if isBadSentinel then
      match c.map.findObjectStartAddr addr with
      | some objectStart =>
        let (hasCorrupted, map) := c.map.checkObjectOverflow objectStart (ObjectHeader.getSize c.map.mem objectStart)
          (ObjectHeader.getObjectSize c.map.mem objectStart) false
        ⟨checkNonAligned, hasCorrupted, map⟩
      | none => { c with checkNonAligned := checkNonAligned }
    else { c with checkNonAligned := checkNonAligned }
  else c

def checkIntegrityOnBMW (bits : BitVec 64) (wordIndex : Nat) : Bool × SentinelMap :=
  let c := (List.range WORDBITS).foldl (checkIntegrityOnBit bits wordIndex) ⟨false, false, s⟩
  (c.hasCorrupted, c.map)

/-- `getMapBytes`: `none` where its assertion fails. -/
def getMapBytes (size : Nat) : Option Nat :=
  let nelts := size / WORD_SIZE
  if nelts % 8 = 0 then some (nelts / 8) else none

/-- The body of the loop of `checkHeapIntegrity`. -/
def checkIntegrityOnIndex (c : Bool × SentinelMap) (index : Nat) : Bool × SentinelMap :=
  let bitword := c.2.bitmap.readWord index
  if bitword ≠ 0#64 then
    let (corrupted, s) := c.2.checkIntegrityOnBMW bitword index
    (c.1 || corrupted, s)
  else c

/-- `checkHeapIntegrity` over the bitmap words of `[start, stop)`. The first of them is taken by `getIndex`, which is
    a bit index: for the start of the heap both are 0. -/
def checkHeapIntegrity (start stop : Nat) : Option (Bool × SentinelMap) :=
  (getMapBytes (stop - start)).map fun bytes =>
    let words := bytes / WORD_SIZE
    ((List.range words).map (getIndex start + ·)).foldl checkIntegrityOnIndex (false, s)

def hasSentinels (addr size : Nat) : Option Bool := s.bitmap.hasBitSet (getIndex addr) (getBitSize size)

/-- `isOverflow`, which the trap handler asks during replay. -/
def isOverflow (addr : Nat) : Option Bool :=
  (s.hasSentinels addr WORD_SIZE).map fun marked => marked && !s.isPreset addr && s.isCorruptedSentinel addr

end SentinelMap

end DoubleTake
