import DoubleTake.Defines
import DoubleTake.SyncVars

/-! The source of the internal heap (`sourceinternalheap.hh`): whole pages, one behind the other, from one mapping. -/

namespace DoubleTake

/-- The heap, with the mapping that it is in. -/
structure SourceInternalHeap where
  start : Nat
  «end» : Nat
  position : Nat
  remaining : Nat
  magic : Nat
  mapStart : Nat
  mapSize : Nat
  deriving DecidableEq, Repr

namespace SourceInternalHeap

def MAGIC : Nat := 0xCAFEBABE

/-- After `initialize`; `mmapAllocatePrivate` maps at the address that it is given. -/
def initialized (startaddr initSize metasize : Nat) : SourceInternalHeap :=
  let size := initSize
  let base := startaddr + metasize
  { start := base, «end» := base + size, position := base, remaining := size, magic := MAGIC,
    mapStart := startaddr, mapSize := size + metasize }

/-- After `initialize` of `perheap`; `metasize` is the size of the heap's own data in whole pages. -/
def perheapInitialized (metasize : Nat) : SourceInternalHeap :=
  initialized XSync.INTERNAL_HEAP_BASE HashMap.INTERNAL_HEAP_SIZE metasize

/-- `none`: the process ends, because the magic number is not there or no memory is left. -/
def malloc (h : SourceInternalHeap) (sz : Nat) : Option (Nat × SourceInternalHeap) :=
  if h.magic ≠ MAGIC then none
  else
    let sz := PageSize * ((sz + PageSize - 1) % 2 ^ 64 / PageSize)
    if h.remaining < sz then none
    else some (h.position, { h with remaining := h.remaining - sz, position := h.position + sz })

/-- One `malloc` after the other: the blocks, with the sizes that were asked for. -/
def mallocs (h : SourceInternalHeap) : List Nat → Option (List (Nat × Nat) × SourceInternalHeap)
  | [] => some ([], h)
  | sz :: sizes => do
    let (p, h) ← h.malloc sz
    let (blocks, h) ← h.mallocs sizes
    some ((p, sz) :: blocks, h)

end SourceInternalHeap

end DoubleTake
