import DoubleTake.SentinelMap
import DoubleTake.Quarantine

/-! The application heap under `xmemory` (`xheap.hh`, `xpheap.hh` and the heap layers they are built from): one
    bump-pointer chunk source, and for each thread a Kingsley heap whose size classes recycle blocks and whose
    zone cuts new ones. -/

namespace DoubleTake

structure XHeap where
  position : Nat
  remaining : Nat
  positionBackup : Nat
  remainingBackup : Nat

namespace XHeap

def saveHeapMetadata (x : XHeap) : XHeap := { x with positionBackup := x.position, remainingBackup := x.remaining }

def recoverHeapMetadata (x : XHeap) : XHeap := { x with position := x.positionBackup, remaining := x.remainingBackup }

end XHeap

/-- A zone: where its arena has space, when it has an arena, and how much is left there. -/
structure ZoneHeap where
  arenaSpace : Option Nat
  sizeRemaining : Nat

/-- The memory with its sentinel map, the chunk source, and the zone and the size-class lists of each thread index.
    A list of a class holds the free blocks, the one freed last at its head. -/
structure XPHeap where
  map : SentinelMap
  xheap : XHeap
  zones : Nat → ZoneHeap
  bins : Nat → Nat → List Nat

namespace Kingsley

abbrev NUMBINS : Nat := 29

def class2Size (i : Nat) : Nat := 2 ^ (i + 3)

/-- `HL::ilog2`, the rounded-up logarithm: the highest bit of `(sz << 1) - 1`. -/
def ilog2 (sz : Nat) : Nat := Nat.log2 (2 * sz - 1)

def size2Class (sz : Nat) : Nat := ilog2 (if sz < 8 then 8 else sz) - 3

end Kingsley

namespace MallocInfo

/-- `UINT_MAX / 2`. -/
abbrev MaxSize : Nat := 2 ^ 31 - 1
abbrev MinSize : Nat := 16
abbrev Alignment : Nat := 16

/-- `HL::align`, up to the next multiple of `Alignment`. -/
def align (sz : Nat) : Nat := (sz + Alignment - 1) / Alignment * Alignment

end MallocInfo

/-- The call ends the process: there is no memory left for a chunk, or the bits to be cleared for it are not all in the bitmap. -/
def Spent {α : Type} (e : Except Fault α) : Prop := e = .error .outOfMemory ∨ e = .error .pastBitmap

namespace XPHeap

open Kingsley MallocInfo

/-- `xheap::malloc`: whole pages off the bump pointer, with their bits cleared. -/
def chunkMalloc (h : XPHeap) (sz : Nat) : Except Fault (Nat × XPHeap) :=
  let sz := PageSize * ((sz + PageSize - 1) / PageSize)
  if h.xheap.remaining < sz then .error .outOfMemory
  else
    let p := h.xheap.position
    if ¬ SentinelMap.ClearsInside p sz then .error .pastBitmap
    else (h.map.cleanup p sz).elim (.error .assertion) fun map =>
      .ok (p, { h with map := map, xheap := { h.xheap with remaining := h.xheap.remaining - sz, position := p + sz } })

/-- `sizeof(Arena)`. -/
abbrev arenaSize : Nat := 16

/-- The first half of `zoneMalloc`: a new arena when there is none or it has too little left. -/
def moreArena (h : XPHeap) (tid sz : Nat) : Except Fault XPHeap :=
  let z := h.zones tid
  if z.arenaSpace = none ∨ z.sizeRemaining < sz then do
    let allocSize := if USER_HEAP_CHUNK < sz then sz else USER_HEAP_CHUNK
    let (arena, h) ← h.chunkMalloc (allocSize + arenaSize)
    .ok { h with zones := Function.update h.zones tid ⟨some (arena + arenaSize), allocSize⟩ }
  else .ok h

/-- `zoneMalloc`: the space at the front of the arena. -/
def zoneMalloc (h : XPHeap) (tid sz : Nat) : Except Fault (Nat × XPHeap) := do
  let sz := align sz
  let h ← h.moreArena tid sz
  match (h.zones tid).arenaSpace with
  | none => .error .nullPointer
  | some ptr =>
    .ok (ptr, { h with zones := Function.update h.zones tid ⟨some (ptr + sz), (h.zones tid).sizeRemaining - sz⟩ })

/-- `AdaptAppHeap::malloc` over the zone: the header, the two sentinels, and the block between them. -/
def adaptMalloc (h : XPHeap) (tid sz : Nat) : Except Fault (Nat × XPHeap) := do
  let (ptr, h) ← h.zoneMalloc tid (sz + ObjectHeader.headerSize + 2 * SENTINEL_SIZE)
  let newptr := ptr + ObjectHeader.headerSize
  let map := { h.map with mem := ObjectHeader.construct h.map.mem ptr sz }.setupSentinels newptr sz
  if ObjectHeader.getSize map.mem newptr = sz then .ok (newptr, { h with map := map }) else .error .assertion

/-- `AdaptAppHeap::getSize`, which aborts on a block size of 0. -/
def getSize (h : XPHeap) (ptr : Nat) : Except Fault Nat :=
  let sz := ObjectHeader.getSize h.map.mem ptr
  if sz = 0 then .error .assertion else .ok sz

/-- `_maxObjectSize`. -/
def maxObjectSize : Nat := class2Size (NUMBINS - 1)

/-- `StrictSegHeap::malloc`: a block from the list of the class, or a new one. -/
def segMalloc (h : XPHeap) (tid sz : Nat) : Except Fault (Nat × XPHeap) :=
  let sizeClass := size2Class sz
  let realSize := class2Size sizeClass
  if realSize < sz then .error .assertion
  else if realSize ≤ maxObjectSize then
    match h.bins tid sizeClass with
    | ptr :: rest => .ok (ptr, { h with bins := Function.update h.bins tid (Function.update (h.bins tid) sizeClass rest) })
    | [] => h.adaptMalloc tid realSize
  else h.adaptMalloc tid realSize

/-- The loop of `StrictSegHeap::free` down to a class that is no bigger than the object. -/
def lowerClass (objectSize : Nat) : Nat → Nat
  | 0 => 0
  | c + 1 => if class2Size (c + 1) > objectSize then lowerClass objectSize c else c + 1

/-- `StrictSegHeap::free`: the block goes to the head of its class's list, which keeps its link in the object's
    first word. Blocks above the largest class go back to the zone, which does nothing with them. -/
def segFree (h : XPHeap) (tid ptr : Nat) : Except Fault XPHeap := do
  let objectSize ← h.getSize ptr
  if objectSize > maxObjectSize then .ok h
  else
    let sizeClass := lowerClass objectSize (size2Class objectSize)
    let list := h.bins tid sizeClass
    .ok { h with
      map := h.map.store ptr (list.headD 0)
      bins := Function.update h.bins tid (Function.update (h.bins tid) sizeClass (ptr :: list)) }

/-- `ANSIWrapper::malloc`. -/
def malloc (h : XPHeap) (tid sz : Nat) : Except Fault (Nat × XPHeap) :=
  if sz = 0 then .ok (0x81234567, h)
  else if sz > MaxSize then .ok (0, h)
  else h.segMalloc tid (align (if sz < MinSize then MinSize else sz))

end XPHeap

end DoubleTake
