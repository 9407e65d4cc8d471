import DoubleTake.XMemory

/-! The memory functions that take the place of those of the C library (`libdoubletake.cpp`). Before the library is
    initialized they are served by a bump-pointer allocator in a static buffer. -/

namespace DoubleTake

abbrev InitialMallocSize : Nat := 1024 * 1024 * 1024

/-- The process with the state of `tempmalloc`, and the pointers that the application has with the sizes that it has asked
    for: those in the heap, and those in the buffer, from which nothing is ever taken back. -/
structure Library where
  rt : Runtime
  initialized : Bool
  buf : Nat
  allocated : Int
  live : List (Nat × Nat)
  early : List (Nat × Nat)

inductive LibraryOp where
  | initializer
  | xxmalloc (tid sz : Nat)
  | xxrealloc (tid ptr sz : Nat)
  | xxfree (tid ptr : Nat)
  | write (addr : Nat) (value : UInt8)
  | epochEnd (current : Nat) (alive : List AliveThread)

namespace Library

def mem (l : Library) : Mem := l.rt.memory.heap.map.mem

/-- `tempmalloc`, whose size and whose count of what is allocated are of type `int`. -/
def tempmalloc (l : Library) (sz : Nat) : Except Fault (Nat × Library) :=
  let size := toInt32 sz
  let allocated := toInt32 (l.allocated + size)
  if allocated > InitialMallocSize then .error .assertion
  else .ok ((l.buf + l.allocated).toNat, { l with allocated := allocated })

def xxmalloc (l : Library) (tid sz : Nat) : Except Fault (Nat × Library) :=
  let sz := if sz = 0 then 1 else sz
  if ¬ l.initialized then
    let sz := if sz < 16 then 16 else sz
    l.tempmalloc ((sz + 15) % 2 ^ 64 / 16 * 16)
  else do
    let (ptr, rt) ← l.rt.malloc tid sz
    .ok (ptr, { l with rt := rt })

def xxfree (l : Library) (tid ptr : Nat) : Except Fault Library :=
  if l.initialized ∧ ptr ≠ 0 then do
    let rt ← l.rt.free tid ptr
    .ok { l with rt := rt }
  else .ok l

/-- The part of `realloc` that keeps the block has bits to clear and to set behind the object. -/
def xxrealloc (l : Library) (tid ptr sz : Nat) : Except Fault (Nat × Library) :=
  if l.initialized then
    if ptr ≠ 0 ∧ sz ≠ 0 ∧ ¬ XMemory.inRange ptr ∧ ObjectHeader.getSize l.mem ptr ≥ sz then .error .outOfBitmap
    else do
      let (buf, rt) ← l.rt.realloc tid ptr sz
      .ok (buf, { l with rt := rt })
  else l.tempmalloc sz

/-- The application holds a pointer that a call has returned. -/
def hold (l : Library) (ptr sz : Nat) : Library :=
  if XMemory.inRange ptr then { l with live := (ptr, sz) :: l.live } else { l with early := (ptr, sz) :: l.early }

/-- It does not hold the pointer any more. -/
def drop (l : Library) (ptr : Nat) : Library := { l with live := l.live.filter (·.1 ≠ ptr) }

def exec (l : Library) : LibraryOp → Except Fault Library
  | .initializer => .ok { l with initialized := true }
  | .xxmalloc tid sz => do
    let (ptr, l) ← l.xxmalloc tid sz
    .ok (l.hold ptr sz)
  | .xxrealloc tid ptr sz => do
    let (buf, l) ← l.xxrealloc tid ptr sz
    .ok ((l.drop ptr).hold buf sz)
  | .xxfree tid ptr => do
    let l ← l.xxfree tid ptr
    .ok (l.drop ptr)
  | .write addr value => .ok { l with rt := l.rt.setMem (l.mem.set addr value) }
  | .epochEnd current alive => do
    let rt ← l.rt.epochEnd current alive
    .ok { l with rt := rt }

/-- What the application may do: it gives back its own pointers, writes inside its objects, and asks for sizes below the limit of
    the heap. Epochs end after the initialization only. -/
def Admissible (l : Library) : LibraryOp → Prop
  | .initializer => True
  | .xxmalloc _ sz => sz ≤ 2 ^ 31 - 16
  | .xxrealloc _ ptr sz => (ptr = 0 ∨ ∃ x ∈ l.live ++ l.early, x.1 = ptr) ∧ sz ≤ 2 ^ 31 - 16
  | .xxfree _ ptr => ∃ x ∈ l.live ++ l.early, x.1 = ptr
  | .write addr _ => ∃ x ∈ l.live ++ l.early, x.1 ≤ addr ∧ addr < x.1 + x.2
  | .epochEnd _ _ => l.initialized = true

instance (l : Library) : (o : LibraryOp) → Decidable (l.Admissible o)
  | .initializer => inferInstanceAs (Decidable True)
  | .xxmalloc _ _ => inferInstanceAs (Decidable (_ ≤ _))
  | .xxrealloc _ _ _ => inferInstanceAs (Decidable (_ ∧ _))
  | .xxfree _ _ => inferInstanceAs (Decidable (∃ _ ∈ _, _))
  | .write _ _ => inferInstanceAs (Decidable (∃ _ ∈ _, _))
  | .epochEnd _ _ => inferInstanceAs (Decidable (_ = _))

/-- The process when it is loaded: the buffer is static data, and the heap will be mapped elsewhere. -/
structure Loaded (l : Library) : Prop where
  state : State.Initial ⟨l.rt, []⟩
  initialized : l.initialized = false
  buf : l.buf + InitialMallocSize ≤ USER_HEAP_BASE ∨ USER_HEAP_BASE + USER_HEAP_SIZE ≤ l.buf
  allocated : l.allocated = 0
  live : l.live = []
  early : l.early = []

/-- The runs of the normal phase from the start of the process. -/
def system : Transition.System Library LibraryOp where
  init := Loaded
  step l o l' := l.Admissible o ∧ l.exec o = .ok l'

end Library

end DoubleTake
