import DoubleTake.XMemory

/-! `memalign` (`xmemory.hh`): a larger object, in which the aligned address is marked with a sentinel of its own. -/

namespace DoubleTake

def SentinelMap.setMemalignSentinelAt (s : SentinelMap) (ptr : Nat) : SentinelMap :=
  (s.store ptr MEMALIGN_SENTINEL_WORD).tryToSet ptr

namespace XMemory

/-- `~(boundary - 1)` in the arithmetic of `size_t`. -/
def boundaryMask (boundary : Nat) : BitVec 64 := ~~~ (BitVec.ofNat 64 boundary - 1#64)

def getAlignedAddress (ptr boundary : Nat) : Nat :=
  if ptr % boundary = 0 then ptr else (BitVec.ofNat 64 (ptr + boundary) &&& boundaryMask boundary).toNat

/-- The aligned address, and how far it is behind `ptr`. -/
def alignedPtr (ptr boundary : Nat) : Nat × Nat :=
  let newptr := getAlignedAddress ptr boundary
  let offset := (2 ^ 64 + newptr - ptr) % 2 ^ 64
  if offset = 0 then ((newptr + boundary) % 2 ^ 64, boundary) else (newptr, offset)

end XMemory

/-- A boundary of 0 is a division by zero. -/
def Runtime.memalign (r : Runtime) (tid boundary sz : Nat) : Except Fault (Nat × Runtime) := do
  let (ptr, r) ← r.malloc tid ((boundary + sz) % 2 ^ 64)
  let (newptr, offset) := XMemory.alignedPtr ptr boundary
  if boundary = 0 ∨ offset < 2 * WORD_SIZE then .error .assertion
  else
    let map := r.memory.heap.map.setMemalignSentinelAt (newptr - WORD_SIZE)
    .ok (newptr, r.setMap (map.store (newptr - 2 * WORD_SIZE) ptr))

/-! ### Runs -/

/-- What `memalign` has returned: `size` bytes at `newptr`, in the block that starts at `ptr`. -/
structure AlignedObject where
  ptr : Nat
  newptr : Nat
  size : Nat
  deriving DecidableEq, Repr

/-- The process with the aligned objects of the application. -/
structure AlignedState extends State where
  aligned : List AlignedObject

inductive AlignedOp where
  | op (o : Op)
  | memalign (tid boundary sz : Nat)

namespace AlignedState

/-- The application gives the object back. -/
def gives : Op → AlignedObject → Bool
  | .free _ ptr, x => x.newptr == ptr
  | .malloc _ _, _ | .realloc _ _ _, _ | .write _ _, _ | .epochEnd _ _, _ => false

/-- It does so, or it writes inside of the object. -/
def touches : Op → AlignedObject → Prop
  | .free _ ptr, x => x.newptr = ptr
  | .write addr _, x => x.newptr ≤ addr ∧ addr < x.newptr + x.size
  | .malloc _ _, _ | .realloc _ _ _, _ | .epochEnd _ _, _ => False

instance : (o : Op) → DecidablePred (touches o)
  | .free _ _, _ => inferInstanceAs (Decidable (_ = _))
  | .write _ _, _ => inferInstanceAs (Decidable (_ ∧ _))
  | .malloc _ _, _ | .realloc _ _ _, _ | .epochEnd _ _, _ => inferInstanceAs (Decidable False)

/-- The application may also use its aligned objects, but not give them to `realloc`. -/
def Admissible (s : AlignedState) : AlignedOp → Prop
  | .op o => s.toState.Admissible o ∨ ∃ x ∈ s.aligned, touches o x
  | .memalign _ boundary sz => boundary < 2 ^ 64 ∧ sz < 2 ^ 64

instance (s : AlignedState) : (o : AlignedOp) → Decidable (s.Admissible o)
  | .op _ => inferInstanceAs (Decidable (_ ∨ _))
  | .memalign _ _ _ => inferInstanceAs (Decidable (_ ∧ _))

/-- The block of an aligned object is what `malloc` returns to `memalign`. -/
def exec (s : AlignedState) : AlignedOp → Except Fault AlignedState
  | .op o => do
    let t ← s.toState.exec o
    .ok ⟨t, s.aligned.filter fun x => !gives o x⟩
  | .memalign tid boundary sz => do
    let (ptr, _) ← s.rt.malloc tid ((boundary + sz) % 2 ^ 64)
    let (newptr, rt) ← s.rt.memalign tid boundary sz
    .ok ⟨⟨rt, s.live⟩, ⟨ptr, newptr, sz⟩ :: s.aligned⟩

def system : Transition.System AlignedState AlignedOp where
  init s := s.toState.Initial ∧ s.aligned = []
  step s o t := s.Admissible o ∧ s.exec o = .ok t

/-- `memalign` is asked for a boundary of whole words, and the size that it asks `malloc` for is a `size_t`. -/
def Fits (_ : AlignedState) : AlignedOp → Prop
  | .op _ => True
  | .memalign _ boundary sz => boundary % WORD_SIZE = 0 ∧ boundary + sz < 2 ^ 64

end AlignedState

end DoubleTake
