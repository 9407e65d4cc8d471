import DoubleTake.Lib.Transition
import DoubleTake.Watchpoints
import DoubleTake.XPHeap

/-! The memory of the process (`xmapping.hh`, `xglobals.hh`, `xmemory.hh`): allocation with sentinels, the checks, and
    the copies that an epoch keeps to roll back to. -/

namespace DoubleTake

/-! ### Mapped regions -/

/-- A region of memory and the copy of it. Only the mapping of the heap has a heap start. -/
structure XMapping where
  userMemory : Nat
  startsize : Nat
  heapStart : Option Nat
  backupMemory : Mem

namespace XMapping

/-- How much `backup` and `recoverMemory` copy: up to `stop` for the heap, everything for a global region. -/
def copySize (x : XMapping) (stop : Nat) : Nat :=
  match x.heapStart with
  | some _ => stop - x.userMemory
  | none => x.startsize

def backup (x : XMapping) (m : Mem) (stop : Nat) : XMapping :=
  { x with backupMemory := x.backupMemory.copy 0 m x.userMemory (x.copySize stop) }

def recoverMemory (x : XMapping) (m : Mem) (stop : Nat) : Mem :=
  m.copy x.userMemory x.backupMemory 0 (x.copySize stop)

end XMapping

/-! ### Events of the kernel -/

/-- The events that are open, none of which is ever closed: how many, and with how many of them the kernel opens one more. -/
structure PerfEvents where
  opened : Nat
  opens : Nat → Bool

/-- `perf_event_open`, once for each of these events. -/
def PerfEvents.openAll (k : PerfEvents) : List PerfEvent → Except Fault PerfEvents
  | [] => .ok k
  | _ :: es => if k.opens k.opened then openAll { k with opened := k.opened + 1 } es else .error .perfEvent

/-! ### The memory -/

/-- The three checks that a run makes. -/
inductive Check where
  /-- `checkOverflowAndCleanSentinels` in `free` and `realloc`. -/
  | object
  /-- `checkHeapOverflow` at an epoch end. -/
  | heap
  /-- `hasUsageAfterFree` on an object that leaves the quarantine. -/
  | usageAfterFree
  deriving DecidableEq, Repr

/-- The heap, its mapping and those of the global regions. The zones and the size-class lists live in the pages
    below the heap start, so the mapping of the heap keeps a copy of them as well. `checks` holds the checks made
    and what they returned, the last one first. -/
structure XMemory where
  heap : XPHeap
  mapping : XMapping
  globals : List XMapping
  zonesBackup : Nat → ZoneHeap
  binsBackup : Nat → Nat → List Nat
  checks : List (Check × Bool)
  perf : PerfEvents

namespace XMemory

/-- `setSentinels` on the bytes from `p` to the end of their word: their number first, then magic bytes. -/
def fillMagicBytes (m : Mem) (p setBytes : Nat) : Mem := fun a =>
  if setBytes ≥ 2 ∧ a = p then UInt8.ofNat (setBytes - 1)
  else if p ≤ a ∧ a < p + setBytes then MAGIC_BYTE_NOT_ALIGNED
  else m a

def setSentinels (map : SentinelMap) (ptr blockSize sz : Nat) : SentinelMap :=
  let offset := (2 ^ 64 + blockSize - sz) % 2 ^ 64
  let p := ptr + sz
  let nonAlignedBytes := sz % WORD_SIZE
  if nonAlignedBytes = 0 then map.setSentinelAt p
  else
    let startp := p - nonAlignedBytes
    let setBytes := WORD_SIZE - nonAlignedBytes
    let map := { map with mem := fillMagicBytes map.mem p setBytes }
    let map := map.markSentinelAt startp
    if offset > WORD_SIZE then map.setSentinelAt (startp + WORD_SIZE) else map

/-- `realmalloc`, outside of a rollback. -/
def realmalloc (x : XMemory) (tid sz : Nat) : Except Fault (Nat × XMemory) := do
  let mysize := if sz < 16 then 16 else sz
  let sz := if sz = 0 then 1 else sz
  let mysize := (mysize + 15) % 2 ^ 64 / 16 * 16
  let (ptr, heap) ← x.heap.malloc tid mysize
  if ptr = 0 then .error .nullPointer
  else
    let map := { heap.map with mem := ObjectHeader.setObjectSize heap.map.mem ptr sz }
    let size := ObjectHeader.getSize map.mem ptr
    if size < sz then .error .assertion
    else
      -- An object that fills its block keeps the sentinel that the block has.
      let map := if size > sz then setSentinels map ptr size sz else map
      .ok (ptr, { x with heap := { heap with map := map } })

def checkOverflowAndCleanSentinels (map : SentinelMap) (ptr : Nat) : Except Fault (Bool × SentinelMap) :=
  let blockSize := ObjectHeader.getSize map.mem ptr
  let sz := ObjectHeader.getObjectSize map.mem ptr
  if blockSize < sz then .error .assertion else .ok (map.checkObjectOverflow ptr blockSize sz true)

/-- `getObjectPtrAtFree`: behind a memalign sentinel stands the pointer that `malloc` returned. -/
def getObjectPtrAtFree (map : SentinelMap) (ptr : Nat) : Nat × SentinelMap :=
  let prevPtr := ptr - WORD_SIZE
  if map.word prevPtr = MEMALIGN_SENTINEL_WORD then
    (map.word (ptr - 2 * WORD_SIZE), map.clearSentinelAt prevPtr)
  else (ptr, map)

def inRange (addr : Nat) : Bool := USER_HEAP_BASE < addr && addr < USER_HEAP_BASE + USER_HEAP_SIZE

def markFreeObject (m : Mem) (ptr size : Nat) : Mem :=
  (List.range (Quarantine.getMarkWords size)).foldl (fun m i => m.write (ptr + i * WORD_SIZE) WORD_SIZE SENTINEL_WORD) m

/-- The words of a freed object that no longer hold the canary. -/
def brokenCanaries (m : Mem) (object : FreeObject) : List Nat :=
  ((List.range (Quarantine.getMarkWords object.size)).map fun i => object.ptr + i * WORD_SIZE).filter fun a =>
    m.read a WORD_SIZE != SENTINEL_WORD

/-- `hasUsageAfterFree`: a watchpoint for each broken canary word. -/
def hasUsageAfterFree (map : SentinelMap) (object : FreeObject) : Bool × SentinelMap :=
  let broken := brokenCanaries map.mem object
  (!broken.isEmpty, broken.foldl (fun map a => map.addWatchpoint a .useAfterFree object.ptr) map)

/-- A check is made and noted. -/
def note (x : XMemory) (c : Check) (result : Bool) (map : SentinelMap) : XMemory :=
  { x with heap := { x.heap with map := map }, checks := (c, result) :: x.checks }

/-- `epochBegin`: save the chunk source's pointers, then copy the heap up to its position and the globals. -/
def epochBegin (x : XMemory) : XMemory :=
  { x with
    heap := { x.heap with xheap := x.heap.xheap.saveHeapMetadata }
    mapping := x.mapping.backup x.heap.map.mem x.heap.xheap.position
    zonesBackup := x.heap.zones
    binsBackup := x.heap.bins
    globals := x.globals.map fun g => g.backup x.heap.map.mem 0 }

/-- What `rollback` does to the memory: copy the globals back, then the heap up to its position of now, then restore the
    pointers. The bitmap has a mapping of its own and is not among them. -/
def recover (x : XMemory) : XMemory :=
  let mem := x.globals.foldl (fun m g => g.recoverMemory m 0) x.heap.map.mem
  let mem := x.mapping.recoverMemory mem x.heap.xheap.position
  { x with
    heap :=
      { x.heap with
        map := { x.heap.map with mem := mem }
        zones := x.zonesBackup
        bins := x.binsBackup
        xheap := x.heap.xheap.recoverHeapMetadata } }

/-- `rollback`: recover the memory, and install the watchpoints that have been added. -/
def rollback (x : XMemory) : Except Fault XMemory := do
  let perf ← x.perf.openAll (installWatchpoints x.heap.map.wp)
  .ok { x.recover with perf := perf }

def checkHeapOverflow (x : XMemory) : Except Fault (Bool × XMemory) := do
  let (hasCorrupted, map) ←
    (x.heap.map.checkHeapIntegrity USER_HEAP_BASE x.heap.xheap.position).elim (.error Fault.assertion) .ok
  let hasOverflow := hasCorrupted || hasToRollback map.wp
  .ok (hasOverflow, x.note .heap hasOverflow map)

/-- The heap as the quarantine of a thread sees it. -/
def quarantineHeap (tid : Nat) : QuarantineHeap XMemory where
  markFreeObject x ptr size :=
    { x with heap := { x.heap with map := { x.heap.map with mem := markFreeObject x.heap.map.mem ptr size } } }
  hasUsageAfterFree x object :=
    let (hasUAF, map) := hasUsageAfterFree x.heap.map object
    (hasUAF, x.note .usageAfterFree hasUAF map)
  realfree x ptr := do
    let heap ← x.heap.segFree tid ptr
    .ok { x with heap := heap }
  rollback := rollback

/-! ### Changes of the memory -/

def mem (x : XMemory) : Mem := x.heap.map.mem

/-- `_end`, where the mapping of the heap ends. -/
def heapEnd (x : XMemory) : Nat := x.mapping.userMemory + x.mapping.startsize

def InGlobals (x : XMemory) (addr : Nat) : Prop :=
  ∃ g ∈ x.globals, g.userMemory ≤ addr ∧ addr < g.userMemory + g.startsize

/-- What the calls of all threads come to: chunks taken from the bump pointer, bytes stored, and new values of the
    zones and lists in the pages below the heap start; and the two ends of an epoch. -/
inductive Change where
  | chunk (sz : Nat)
  | store (addr : Nat) (value : UInt8)
  | metadata (zones : Nat → ZoneHeap) (bins : Nat → Nat → List Nat)
  | epochBegin
  | rollback

def apply (x : XMemory) : Change → Except Fault XMemory
  | .chunk sz => do
    let (_, heap) ← x.heap.chunkMalloc sz
    .ok { x with heap := heap }
  | .store addr value => .ok { x with heap := { x.heap with map := { x.heap.map with mem := x.mem.set addr value } } }
  | .metadata zones bins => .ok { x with heap := { x.heap with zones := zones, bins := bins } }
  | .epochBegin => .ok x.epochBegin
  | .rollback => x.rollback

/-- The mappings as `initialize` leaves them. The copies are new anonymous memory. -/
structure Fresh (x : XMemory) : Prop where
  heapStart : x.mapping.heapStart = some USER_HEAP_BASE
  base : x.mapping.userMemory ≤ USER_HEAP_BASE
  backup : ∀ o, x.mapping.backupMemory o = 0
  position : x.heap.xheap.position = USER_HEAP_BASE
  remaining : x.heap.xheap.remaining = USER_HEAP_SIZE
  stop : x.heapEnd = USER_HEAP_BASE + USER_HEAP_SIZE
  globals : ∀ g ∈ x.globals, g.heapStart = none

/-- Any changes, from the first `epochBegin` on. -/
def changes : Transition.System XMemory Change where
  init x := ∃ x₀, Fresh x₀ ∧ x = x₀.epochBegin
  step x c y := x.apply c = .ok y

/-- What happens within an epoch: the application stores below the heap position and in the globals. -/
def InEpoch (x : XMemory) : Change → Prop
  | .chunk _ => True
  | .store addr _ => x.mapping.userMemory ≤ addr ∧ addr < x.heap.xheap.position ∨ x.InGlobals addr
  | .metadata _ _ => True
  | .epochBegin => False
  | .rollback => False

end XMemory

/-! ### The calls of the threads -/

/-- The memory of the process and the quarantine of each thread. -/
structure Runtime where
  memory : XMemory
  qlist : Nat → Quarantine

namespace Runtime

def malloc (r : Runtime) (tid sz : Nat) : Except Fault (Nat × Runtime) := do
  let (ptr, memory) ← r.memory.realmalloc tid sz
  .ok (ptr, { r with memory := memory })

/-- `xpheap::free`: into the quarantine of the thread, or to the heap when the object is too large for it. -/
def pheapFree (r : Runtime) (tid ptr : Nat) : Except Fault Runtime := do
  let size ← r.memory.heap.getSize ptr
  let (added, q, memory) ← Quarantine.addFreeObject (XMemory.quarantineHeap tid) (r.qlist tid) r.memory ptr size
  if added then .ok { r with memory := memory, qlist := Function.update r.qlist tid q }
  else
    let heap ← memory.heap.segFree tid ptr
    .ok { r with memory := { memory with heap := heap } }

/-- The check of `free` and `realloc`, made outside of a rollback. -/
def checkObject (r : Runtime) (ptr : Nat) : Except Fault (Bool × Runtime) := do
  let (hasOverflow, map) ← XMemory.checkOverflowAndCleanSentinels r.memory.heap.map ptr
  .ok (hasOverflow, { r with memory := r.memory.note .object hasOverflow map })

def setMap (r : Runtime) (map : SentinelMap) : Runtime :=
  { r with memory := { r.memory with heap := { r.memory.heap with map := map } } }

def setMem (r : Runtime) (mem : Mem) : Runtime := r.setMap { r.memory.heap.map with mem := mem }

/-- `free` prints that it has caught a double free or an invalid free; it goes on after that. -/
def reportsInvalidFree (r : Runtime) (ptr : Nat) : Bool :=
  let (origptr, map) := XMemory.getObjectPtrAtFree r.memory.heap.map ptr
  XMemory.inRange ptr && !ObjectHeader.isGoodObject map.mem origptr

/-- `free` in the normal phase. -/
def free (r : Runtime) (tid ptr : Nat) : Except Fault Runtime :=
  if ¬ XMemory.inRange ptr then .ok r
  else do
    let (origptr, map) := XMemory.getObjectPtrAtFree r.memory.heap.map ptr
    let (hasOverflow, r) ← (r.setMap map).checkObject origptr
    -- `invokeCommit` ends the epoch, and with the watchpoint set the epoch ends in a rollback.
    if hasOverflow then .ok r
    else
      let r ← r.pheapFree tid origptr
      .ok (r.setMem (ObjectHeader.setObjectFree r.memory.heap.map.mem origptr))

/-- `realloc` in the normal phase. -/
def realloc (r : Runtime) (tid ptr sz : Nat) : Except Fault (Nat × Runtime) :=
  if ptr = 0 then r.malloc tid sz
  else if sz = 0 then do
    let r ← r.free tid ptr
    r.malloc tid 1
  else
    let objSize := ObjectHeader.getObjectSize r.memory.heap.map.mem ptr
    let blockSize := ObjectHeader.getSize r.memory.heap.map.mem ptr
    if blockSize ≥ sz then do
      let (_, r) ← r.checkObject ptr
      let map := { r.memory.heap.map with mem := ObjectHeader.setObjectSize r.memory.heap.map.mem ptr sz }
      .ok (ptr, r.setMap (XMemory.setSentinels map ptr blockSize sz))
    else do
      let (buf, r) ← r.malloc tid sz
      let minSize := if objSize < sz then objSize else sz
      let r := r.setMem (r.memory.heap.map.mem.copy buf r.memory.heap.map.mem ptr minSize)
      let r ← r.free tid ptr
      .ok (buf, r)

def epochBegin (r : Runtime) (current : Nat) (alive : List AliveThread) : Runtime where
  memory := r.memory.epochBegin
  qlist := Quarantine.beginThreads r.qlist current alive

/-- The end of an epoch and, when it ends well, the beginning of the next one. -/
def epochEnd (r : Runtime) (current : Nat) (alive : List AliveThread) : Except Fault Runtime := do
  let (hasOverflow, memory) ← r.memory.checkHeapOverflow
  let r := { r with memory := memory }
  if hasOverflow then do
    let memory ← r.memory.rollback
    .ok { r with memory := memory }
  else .ok (r.epochBegin current alive)

end Runtime

/-! ### Runs -/

/-- The process and the pointers that the application holds. -/
structure State where
  rt : Runtime
  live : List Nat

/-- What the application does, and the epoch ends. -/
inductive Op where
  | malloc (tid sz : Nat)
  | realloc (tid ptr sz : Nat)
  | free (tid ptr : Nat)
  | write (addr : Nat) (value : UInt8)
  | epochEnd (current : Nat) (alive : List AliveThread)

namespace State

def mem (s : State) : Mem := s.rt.memory.heap.map.mem

/-- The address lies in the object that `ptr` points to. -/
def InObject (s : State) (ptr addr : Nat) : Prop := ptr ≤ addr ∧ addr < ptr + ObjectHeader.getObjectSize s.mem ptr

instance (s : State) (ptr addr : Nat) : Decidable (s.InObject ptr addr) := inferInstanceAs (Decidable (_ ∧ _))

/-- What a step of the application may do: pointers that it gives back are its own, and it writes inside its
    objects. -/
def Admissible (s : State) : Op → Prop
  | .malloc _ _ => True
  | .realloc _ ptr _ => ptr = 0 ∨ ptr ∈ s.live
  | .free _ ptr => ptr ∈ s.live
  | .write addr _ => ∃ ptr ∈ s.live, s.InObject ptr addr
  | .epochEnd _ _ => True

instance (s : State) : (o : Op) → Decidable (s.Admissible o)
  | .malloc _ _ => inferInstanceAs (Decidable True)
  | .realloc _ _ _ => inferInstanceAs (Decidable (_ ∨ _))
  | .free _ _ => inferInstanceAs (Decidable (_ ∈ _))
  | .write _ _ => inferInstanceAs (Decidable (∃ _ ∈ _, _))
  | .epochEnd _ _ => inferInstanceAs (Decidable True)

/-- The state after a step. -/
def exec (s : State) : Op → Except Fault State
  | .malloc tid sz => do
    let (ptr, rt) ← s.rt.malloc tid sz
    .ok ⟨rt, ptr :: s.live⟩
  | .realloc tid ptr sz => do
    let (buf, rt) ← s.rt.realloc tid ptr sz
    .ok ⟨rt, buf :: s.live.erase ptr⟩
  | .free tid ptr => do
    let rt ← s.rt.free tid ptr
    .ok ⟨rt, s.live.erase ptr⟩
  | .write addr value => .ok { s with rt := s.rt.setMem (s.mem.set addr value) }
  | .epochEnd current alive => do
    let rt ← s.rt.epochEnd current alive
    .ok { s with rt := rt }

/-- The process as `initialize` leaves it: nothing allocated, nothing marked, empty quarantines. -/
structure Initial (s : State) : Prop where
  bitmap : ∀ i, s.rt.memory.heap.map.bitmap i = 0#64
  wp : s.rt.memory.heap.map.wp = []
  position : s.rt.memory.heap.xheap.position = USER_HEAP_BASE
  remaining : s.rt.memory.heap.xheap.remaining = USER_HEAP_SIZE
  zones : ∀ t, (s.rt.memory.heap.zones t).arenaSpace = none
  bins : ∀ t c, s.rt.memory.heap.bins t c = []
  checks : s.rt.memory.checks = []
  qlist : ∀ t, s.rt.qlist t = Quarantine.initial
  live : s.live = []

/-- The process after `initialize`, with memory that is zero, one page of metadata and no global regions. -/
def start : State where
  rt :=
    { memory :=
        { heap :=
            { map := { mem := fun _ => 0, bitmap := fun _ => 0#64, wp := [] }
              xheap :=
                { position := USER_HEAP_BASE
                  remaining := USER_HEAP_SIZE
                  positionBackup := 0
                  remainingBackup := 0 }
              zones := fun _ => ⟨none, 0⟩
              bins := fun _ _ => [] }
          mapping := ⟨USER_HEAP_BASE - PageSize, PageSize + USER_HEAP_SIZE, some USER_HEAP_BASE, fun _ => 0⟩
          globals := []
          zonesBackup := fun _ => ⟨none, 0⟩
          binsBackup := fun _ _ => []
          checks := []
          perf := ⟨0, fun n => n < MAX_WATCHPOINTS⟩ }
      qlist := fun _ => Quarantine.initial }
  live := []

theorem start_initial : start.Initial :=
  ⟨fun _ => rfl, rfl, rfl, rfl, fun _ => rfl, fun _ _ => rfl, rfl, fun _ => rfl, rfl⟩

/-- The runs of the normal phase. -/
def system : Transition.System State Op where
  init := Initial
  step s o t := s.Admissible o ∧ s.exec o = .ok t

/-- The state after a list of steps, when all of them are admissible and return. -/
def run (s : State) : List Op → Option State
  | [] => some s
  | o :: os =>
    if s.Admissible o then
      match s.exec o with
      | .ok t => run t os
      | .error _ => none
    else none

end State

end DoubleTake
