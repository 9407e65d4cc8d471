import DoubleTake.Lib.Ring
import DoubleTake.Defines

/-! The quarantine of freed objects (`quarantine.hh`): a ring of slots in which an object stays, filled with canary
    words, until it is evicted and really freed. The ring works on any heap that offers the operations it calls. -/

namespace DoubleTake

/-- Why a call does not return to the program. -/
inductive Fault where
  /-- `exit(-1)` in `xheap::malloc`. -/
  | outOfMemory
  /-- A null pointer is dereferenced. -/
  | nullPointer
  /-- An assertion fails or `abort` is called. -/
  | assertion
  /-- A loop has used up the rounds the model gives it. -/
  | loop
  /-- The word of an address that is not in the heap has no bit in the bitmap. -/
  | outOfBitmap
  /-- The `memset` of `clearBits` goes past the end of the bitmap, which is a mapping of its own. -/
  | pastBitmap
  /-- `abort` in `install_watchpoint`: the kernel opens no more event. -/
  | perfEvent
  deriving DecidableEq, Repr

structure FreeObject where
  ptr : Nat
  size : Nat
  deriving DecidableEq, Repr

structure Quarantine where
  objects : Nat → FreeObject
  objectsBackup : Nat → FreeObject
  totalSize : Nat
  totalSizeBackup : Nat
  availIndex : Nat
  availIndexBackup : Nat
  LRIndex : Nat
  LRIndexBackup : Nat

/-- A thread as `xrun::epochBegin` sees it. -/
structure AliveThread where
  index : Nat
  hasJoined : Bool

/-- What the quarantine calls: `markFreeObject`, `hasUsageAfterFree`, `realfree` and `rollback`. -/
structure QuarantineHeap (H : Type) where
  markFreeObject : H → Nat → Nat → H
  hasUsageAfterFree : H → FreeObject → Bool × H
  realfree : H → Nat → Except Fault H
  rollback : H → Except Fault H

namespace Quarantine

variable {H : Type}

def initial : Quarantine where
  objects _ := ⟨0, 0⟩
  objectsBackup _ := ⟨0, 0⟩
  totalSize := 0
  totalSizeBackup := 0
  availIndex := 0
  availIndexBackup := 0
  LRIndex := 0
  LRIndexBackup := 0

def backup (q : Quarantine) : Quarantine :=
  { q with
    availIndexBackup := q.availIndex
    LRIndexBackup := q.LRIndex
    totalSizeBackup := q.totalSize
    objectsBackup := q.objects }

def restore (q : Quarantine) : Quarantine :=
  { q with
    availIndex := q.availIndexBackup
    LRIndex := q.LRIndexBackup
    totalSize := q.totalSizeBackup
    objects := q.objectsBackup }

/-- How many words of a freed object of this size hold the canary. -/
def getMarkWords (size : Nat) : Nat :=
  if size > FREE_OBJECT_CANARY_SIZE then FREE_OBJECT_CANARY_WORDS else size / WORD_SIZE

def incrIndex (index : Nat) : Nat := (index + 1) % QUARANTINE_BUF_SIZE

def hasAvailSlot (q : Quarantine) : Bool := (q.availIndex + 1) % QUARANTINE_BUF_SIZE != q.LRIndex

def getLRObject (q : Quarantine) : FreeObject := q.objects q.LRIndex

def freeLRObject (ops : QuarantineHeap H) (q : Quarantine) (h : H) : Except Fault (Quarantine × H) :=
  let object := q.getLRObject
  let (hasUAF, h) := ops.hasUsageAfterFree h object
  if hasUAF then do
    let h ← ops.rollback h
    .ok (q, h)
  else do
    let h ← ops.realfree h object.ptr
    .ok ({ q with totalSize := q.totalSize - object.size, LRIndex := incrIndex q.LRIndex }, h)

/-- The eviction loop of `addFreeObject`. A damaged canary keeps the ring as it is. -/
def evict (ops : QuarantineHeap H) : Nat → Quarantine → H → Except Fault (Quarantine × H)
  | 0, _, _ => .error .loop
  | fuel + 1, q, h =>
    if q.totalSize > QUARANTINE_TOTAL_SIZE ∨ ¬ q.hasAvailSlot then do
      let (q, h) ← freeLRObject ops q h
      evict ops fuel q h
    else .ok (q, h)

/-- `addFreeObject`, with a number of rounds for its loop; the assertion is the one of `getMarkWords`. -/
def addFreeObjectWithin (fuel : Nat) (ops : QuarantineHeap H) (q : Quarantine) (h : H) (ptr size : Nat) :
    Except Fault (Bool × Quarantine × H) :=
  if size ≥ QUARANTINE_TOTAL_SIZE then .ok (false, q, h)
  else if size % WORD_SIZE ≠ 0 then .error .assertion
  else do
    let q := { q with objects := Function.update q.objects q.availIndex ⟨ptr, size⟩ }
    let h := ops.markFreeObject h ptr size
    let q := { q with totalSize := q.totalSize + size }
    let (q, h) ← evict ops fuel q h
    .ok (true, { q with availIndex := incrIndex q.availIndex }, h)

/-- `addFreeObject`, with as many rounds as the ring has slots. -/
def addFreeObject (ops : QuarantineHeap H) (q : Quarantine) (h : H) (ptr size : Nat) : Except Fault (Bool × Quarantine × H) :=
  addFreeObjectWithin QUARANTINE_BUF_SIZE ops q h ptr size

/-- `retrieveLRObject`: the oldest object leaves the ring; `none` for the null pointer of an empty one. -/
def retrieveLRObject (q : Quarantine) : Option FreeObject × Quarantine :=
  if q.LRIndex = q.availIndex then (none, q)
  else (some (q.objects q.LRIndex), { q with LRIndex := incrIndex q.LRIndex })

/-- The loop of `finalUAFCheck`, or `none` when it has used up the rounds. -/
def finalUAFCheckLoop (ops : QuarantineHeap H) : Nat → Bool → Nat → Quarantine → H → Option (Bool × Quarantine × H)
  | 0, _, _, _, _ => none
  | fuel + 1, hasUAF, UAFErrors, q, h =>
    match q.retrieveLRObject with
    | (none, q) => some (hasUAF, q, h)
    | (some object, q) =>
      let (damaged, h) := ops.hasUsageAfterFree h object
      if damaged then
        if UAFErrors + 1 = 4 then some (true, q, h) else finalUAFCheckLoop ops fuel true (UAFErrors + 1) q h
      else finalUAFCheckLoop ops fuel hasUAF UAFErrors q h

/-- `finalUAFCheck`, with as many rounds as the ring has slots. -/
def finalUAFCheck (ops : QuarantineHeap H) (q : Quarantine) (h : H) : Option (Bool × Quarantine × H) :=
  finalUAFCheckLoop ops QUARANTINE_BUF_SIZE false 0 q h

/-- The objects in quarantine: the slots `[_LRIndex, _availIndex)`. -/
def ring (q : Quarantine) : List FreeObject := Ring.view q.objects QUARANTINE_BUF_SIZE q.LRIndex q.availIndex

/-- The loop of `xrun::epochBegin` over the alive threads: a joined thread other than the current one is left to
    exit, for the others `xthread::epochBegin` restores the quarantine. -/
def beginThreads (qlist : Nat → Quarantine) (current : Nat) (alive : List AliveThread) : Nat → Quarantine :=
  alive.foldl (fun qlist t =>
    if t.index ≠ current ∧ t.hasJoined then qlist
    else Function.update qlist t.index (qlist t.index).restore) qlist

end Quarantine

end DoubleTake
