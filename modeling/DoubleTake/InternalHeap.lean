import DoubleTake.SourceInternalHeap
import DoubleTake.XPHeap
import DoubleTake.Lib.Transition

/-! The heap for the data of the runtime itself (`internalheap.hh`): a Kingsley heap for each thread, over pages that no rollback
    touches. Its bookkeeping is in the memory that it gives out: an arena begins with its own data, a block with its header, and a
    free block holds the link of its list in its first word. -/

namespace DoubleTake

/-- `ZoneHeap`, with null pointers as 0. -/
structure InternalZone where
  sizeRemaining : Int
  currentArena : Nat
  pastArenas : Nat
  deriving DecidableEq, Repr

/-- The memory, the pages, and for each thread index its zone and the heads of the lists of its size classes. -/
structure InternalHeap where
  mem : Mem
  source : SourceInternalHeap
  zones : Nat → InternalZone
  heads : Nat → Nat → Nat

namespace InternalHeap

open Kingsley MallocInfo
open XPHeap (arenaSize maxObjectSize lowerClass)

abbrev INTERNAL_HEAP_CHUNK : Nat := 1048576
abbrev NUM_HEAPS : Nat := 128

/-- What `ANSIWrapper` returns for a size of 0. -/
abbrev UNIQUE_VALUE : Nat := 0x81234567

def initialized (mem : Mem) (metasize : Nat) : InternalHeap :=
  ⟨mem, .perheapInitialized metasize, fun _ => ⟨-1, 0, 0⟩, fun _ _ => 0⟩

/-! ### The zone

An `Arena` has the address of the next past arena in its first word, and in its second one where it has space. -/

/-- The first half of `zoneMalloc`. `none` here and below: the process ends, at an assertion or because no memory is left. -/
def moreArena (h : InternalHeap) (tid sz : Nat) : Option InternalHeap :=
  let z := h.zones tid
  if z.currentArena = 0 ∨ z.sizeRemaining < sz then
    let (mem, pastArenas) :=
      if z.currentArena ≠ 0 then (h.mem.write z.currentArena 8 z.pastArenas, z.currentArena) else (h.mem, z.pastArenas)
    let allocSize := if INTERNAL_HEAP_CHUNK < sz then sz else INTERNAL_HEAP_CHUNK
    (h.source.malloc (allocSize + arenaSize)).bind fun (arena, source) =>
      if arena ≠ 0 then
        some { h with
          mem := (mem.write (arena + 8) 8 (arena + arenaSize)).write arena 8 0
          source := source
          zones := Function.update h.zones tid ⟨allocSize, arena, pastArenas⟩ }
      else none
  else some h

/-- `zoneMalloc`. -/
def zoneMalloc (h : InternalHeap) (tid sz : Nat) : Option (Nat × InternalHeap) :=
  let sz := align sz
  (h.moreArena tid sz).bind fun h =>
    let z := h.zones tid
    let ptr := h.mem.read (z.currentArena + 8) 8
    if ptr ≠ 0 ∧ ptr % MallocInfo.Alignment = 0 then
      some (ptr, { h with
        mem := h.mem.write (z.currentArena + 8) 8 (ptr + sz)
        zones := Function.update h.zones tid { z with sizeRemaining := z.sizeRemaining - sz } })
    else none

/-- `InternalAdaptHeap::malloc` over the zone, which leaves room for two sentinels but writes none. -/
def adaptMalloc (h : InternalHeap) (tid sz : Nat) : Option (Nat × InternalHeap) :=
  (h.zoneMalloc tid (sz + ObjectHeader.headerSize + 2 * SENTINEL_SIZE)).map fun (ptr, h) =>
    (ptr + ObjectHeader.headerSize, { h with mem := ObjectHeader.construct h.mem ptr sz })

/-- `InternalAdaptHeap::getSize`. -/
def getSize (h : InternalHeap) (ptr : Nat) : Option Nat :=
  let sz := ObjectHeader.getSize h.mem ptr
  if sz ≠ 0 then some sz else none

/-! ### The lists of the size classes -/

def setHead (h : InternalHeap) (tid sizeClass e : Nat) : InternalHeap :=
  { h with heads := Function.update h.heads tid (Function.update (h.heads tid) sizeClass e) }

/-- `SLList::get`. -/
def get (h : InternalHeap) (tid sizeClass : Nat) : Nat × InternalHeap :=
  let e := h.heads tid sizeClass
  if e = 0 then (0, h) else (e, h.setHead tid sizeClass (h.mem.read e 8))

/-- `SLList::insert`. -/
def insert (h : InternalHeap) (tid sizeClass e : Nat) : InternalHeap :=
  { h with mem := h.mem.write e 8 (h.heads tid sizeClass) }.setHead tid sizeClass e

/-- `sizeof(SLList)`, the least size that `AdaptHeap` lets into a list. -/
abbrev dictSize : Nat := 8

/-- `AdaptHeap::malloc`. -/
def dictMalloc (h : InternalHeap) (tid sizeClass : Nat) : Option (Nat × InternalHeap) :=
  let (ptr, h) := h.get tid sizeClass
  if ptr = 0 then some (0, h)
  else (h.getSize ptr).bind fun size => if dictSize ≤ size then some (ptr, h) else none

/-- `AdaptHeap::free`. -/
def dictFree (h : InternalHeap) (tid sizeClass ptr : Nat) : Option InternalHeap :=
  (h.getSize ptr).bind fun size => if dictSize ≤ size then some (h.insert tid sizeClass ptr) else none

/-- `StrictSegHeap::malloc`. -/
def segMalloc (h : InternalHeap) (tid sz : Nat) : Option (Nat × InternalHeap) :=
  let sizeClass := size2Class sz
  let realSize := class2Size sizeClass
  if realSize < sz then none
  else
    (if realSize ≤ maxObjectSize then h.dictMalloc tid sizeClass else some (0, h)).bind fun (ptr, h) =>
      if ptr = 0 then h.adaptMalloc tid realSize else some (ptr, h)

/-- `StrictSegHeap::free`. A zone does nothing with what it is given back. -/
def segFree (h : InternalHeap) (tid ptr : Nat) : Option InternalHeap :=
  (h.getSize ptr).bind fun objectSize =>
    if objectSize > maxObjectSize then some h
    else
      let objectSizeClass := size2Class objectSize
      if objectSizeClass < NUMBINS then h.dictFree tid (lowerClass objectSize objectSizeClass) ptr else none

/-! ### `InternalHeap` -/

/-- A null pointer does not pass the check of `InternalHeap::malloc`. -/
def malloc (h : InternalHeap) (tid sz : Nat) : Option (Nat × InternalHeap) :=
  if sz = 0 then some (UNIQUE_VALUE, h)
  else if sz > MaxSize then none
  else
    (h.segMalloc tid (align (if sz < MinSize then MinSize else sz))).bind fun (ptr, h) =>
      if ptr % MallocInfo.Alignment = 0 ∧ ptr ≠ 0 then some (ptr, h) else none

def free (h : InternalHeap) (tid ptr : Nat) : Option InternalHeap :=
  if tid < NUM_HEAPS then
    if ptr ≠ UNIQUE_VALUE ∧ ptr ≠ 0 then h.segFree tid ptr else some h
  else none

/-! ### The heap in use -/

/-- The objects that the runtime has, with the sizes that it has asked for. -/
structure State where
  heap : InternalHeap
  objects : Nat → Option Nat

/-- A call of a thread, or a byte that the runtime stores into an object. The calls of two threads have nothing in common but
    the pages, for which they take a lock. -/
inductive Act where
  | malloc (tid sz : Nat)
  | free (tid ptr : Nat)
  | store (ptr offset : Nat) (v : UInt8)
  deriving DecidableEq

namespace State

/-- The runtime frees what it has, and what it stores is inside of its objects. -/
def exec (s : State) : Act → Option State
  | .malloc tid sz =>
    if tid < NUM_HEAPS then
      (s.heap.malloc tid sz).map fun (ptr, heap) =>
        ⟨heap, if sz = 0 then s.objects else Function.update s.objects ptr (some sz)⟩
    else none
  | .free tid ptr =>
    if ptr = UNIQUE_VALUE ∨ ptr = 0 ∨ (s.objects ptr).isSome then
      (s.heap.free tid ptr).map fun heap => ⟨heap, Function.update s.objects ptr none⟩
    else none
  | .store ptr offset v =>
    if offset < (s.objects ptr).getD 0 then some { s with heap := { s.heap with mem := s.heap.mem.set (ptr + offset) v } } else none

end State

/-- The data of the heap itself, whose size is an `int`, take whole pages in front of it. -/
def system : Transition.System State Act where
  init s := ∃ mem metasize, metasize % PageSize = 0 ∧ metasize < 2 ^ 31 ∧ s = ⟨initialized mem metasize, fun _ => none⟩
  step s act s' := s.exec act = some s'

end InternalHeap

end DoubleTake
