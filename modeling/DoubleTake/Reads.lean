import DoubleTake.Fops
import DoubleTake.XMemory

/-! The calls that read into buffers of the program (`read`, `pread` and `readv` of `syscalls.hh`): what they store before the
    real call, and the epoch that ends around it when the file is not one of those that may be read within an epoch. -/

namespace DoubleTake

namespace Reads

/-! ### Before the real call -/

/-- The address of `start[i]`. -/
def index (start : Nat) (i : Int) : Nat := ((start + i) % 2 ^ 64).toNat

/-- `makeWritable`, whose `count` is an `int`. -/
def makeWritable (m : Mem) (buf count : Nat) : Mem :=
  let count := toInt32 count
  let pages := count.tdiv PageSize
  let m := (List.range pages.toNat).foldl (fun m (i : Nat) => m.set (index buf (i * PageSize)) 0) m
  m.set (index buf (toInt32 (count - 1))) 0

/-- `struct iovec`. -/
structure IoVec where
  iov_base : Nat
  iov_len : Nat
  deriving DecidableEq, Repr

def iovec (m : Mem) (p : Nat) : IoVec := ⟨m.read p 8, m.read (p + 8) 8⟩

/-- `vec[i]` of `readv`, which takes the vector for an array of pointers. -/
def vecAt (m : Mem) (vector i : Nat) : IoVec := iovec m (m.read (vector + i * 8) 8)

/-- The first loop of `readv`. -/
def makeVectorWritable (m : Mem) (vector : Nat) (count : Int) : Mem :=
  (List.range count.toNat).foldl
    (fun m i => makeWritable m (vecAt m vector i).iov_base (vecAt m vector i).iov_len) m

/-! ### The real call -/

/-- The buffers that a vector describes: an array of `struct iovec`. -/
def buffersAt (m : Mem) (vector : Nat) (count : Int) : List IoVec :=
  (List.range count.toNat).map fun i => iovec m (vector + i * 16)

/-- The bytes of the buffers, one buffer after the other. -/
def addresses (buffers : List IoVec) : List Nat :=
  buffers.flatMap fun v => (List.range v.iov_len).map fun (j : Nat) => index v.iov_base j

/-- What the real call answers: `none` for an error, and otherwise what it stores. -/
abbrev Answer := Option (List UInt8)

def Answer.ret (answer : Answer) : Int := answer.elim (-1) fun data => data.length

/-- The bytes that have been read go to the buffers. -/
def fill (m : Mem) (buffers : List IoVec) (answer : Answer) : Mem :=
  ((addresses buffers).zip (answer.getD [])).foldl (fun m s => m.set s.1 s.2) m

/-! ### The calls -/

/-- The thread that makes the call, and the ones that are alive. -/
structure State where
  rt : Runtime
  fops : Fops.State
  current : Nat
  alive : List AliveThread

inductive Call where
  | read (fd : Int) (buf count : Nat)
  | pread (fd : Int) (buf count : Nat) (offset : Int)
  | readv (fd : Int) (vector : Nat) (count : Int)

namespace State

def mem (s : State) : Mem := s.rt.memory.heap.map.mem

def setMem (s : State) (m : Mem) : State := { s with rt := s.rt.setMem m }

/-- `epochEnd`, without the check for leaks, which is not compiled in. A rollback does not return. -/
def epochEnd (s : State) : Option State := do
  let (hasOverflow, memory) ← s.rt.memory.checkHeapOverflow.toOption
  if hasOverflow then none
  else
    let fops ← s.fops.commit
    some { s with rt := { s.rt with memory := memory }, fops := fops }

def epochBegin (s : State) : State := { s with rt := s.rt.epochBegin s.current s.alive }

/-- The real call, inside the epoch or between two. -/
def onFile (s : State) (fd : Int) (real : Mem → Mem) : Option State :=
  if s.fops.checkPermission fd then some (s.setMem (real s.mem))
  else do
    let s ← s.epochEnd
    some (s.setMem (real s.mem)).epochBegin

def read (s : State) (fd : Int) (buf count : Nat) (answer : Answer) : Option (State × Int) := do
  let s := s.setMem (makeWritable s.mem buf count)
  let s ← s.onFile fd fun m => fill m [⟨buf, count⟩] answer
  some (s, answer.ret)

/-- `pread`. The offset is one in the file. -/
def pread (s : State) (fd : Int) (buf count : Nat) (_ : Int) (answer : Answer) : Option (State × Int) := do
  let s := s.setMem (makeWritable s.mem buf count)
  let s ← s.onFile fd fun m => fill m [⟨buf, count⟩] answer
  some (s, answer.ret)

/-- `readv`. The `atomicCommit` after a real call between two epochs does nothing. -/
def readv (s : State) (fd : Int) (vector : Nat) (count : Int) (answer : Answer) : Option (State × Int) := do
  let s := s.setMem (makeVectorWritable s.mem vector count)
  let s ← s.onFile fd fun m => fill m (buffersAt m vector count) answer
  some (s, answer.ret)

def exec (s : State) (answer : Answer) : Call → Option (State × Int)
  | .read fd buf count => s.read fd buf count answer
  | .pread fd buf count offset => s.pread fd buf count offset answer
  | .readv fd vector count => s.readv fd vector count answer

end State

end Reads

end DoubleTake
