import Mathlib.Logic.Function.Basic
import DoubleTake.Lib.Transition

/-! Descriptors over epochs (`fops.hh`, and the calls of `syscalls.hh` that move a file or write to it): where each file
    stands, what has been written, and what a rollback and the replay after it do to both. What the operating system
    answers is given with each call. -/

namespace DoubleTake

namespace Files

/-- What `fops` keeps of a file. -/
structure Info where
  fd : Int
  pos : Int
  deriving DecidableEq, Repr

/-- A call of the program. `read`, `write` and `writev` come with what they transfer. -/
inductive Call where
  | open (ret : Int) (description : Nat)
  | close (fd : Int)
  | read (fd : Int) (count : Nat)
  | write (fd : Int) (data : List UInt8)
  | writev (fd : Int) (data : List UInt8)
  | lseek (fd : Int) (pos : Int)
  /-- Any other call; it ends the epoch or not. -/
  | other (commits : Bool)
  deriving DecidableEq, Repr

structure State where
  filesMap : List (Int × Info)
  /-- The descriptors to be closed when the epoch ends. -/
  closeList : List Int
  /-- The open file behind a descriptor, and where it stands. -/
  description : Int → Nat
  offset : Nat → Int
  /-- What the operating system has been given to write. -/
  emitted : List (Int × List UInt8)
  /-- The calls of this epoch, and how far each of them has moved which open file; the descriptors that were in the map at
      the start of the epoch, and where the files stood. -/
  epoch : List Call
  moves : List (Nat × Nat)
  begun : List Int
  beginOffset : Nat → Int

namespace State

def find (s : State) (fd : Int) : Option Info := s.filesMap.lookup fd

/-- `fops::checkPermission`. -/
def checkPermission (s : State) (fd : Int) : Bool :=
  if fd ≤ 0 then false
  else if fd = 1 ∨ fd = 2 ∨ fd = 3 then true
  else (s.find fd).isSome

def setOffset (s : State) (d : Nat) (pos : Int) : State := { s with offset := Function.update s.offset d pos }

/-- The file behind a descriptor moves on. -/
def move (s : State) (fd : Int) (n : Nat) : State := s.setOffset (s.description fd) (s.offset (s.description fd) + n)

def emit (s : State) (fd : Int) (data : List UInt8) : State := { s with emitted := s.emitted ++ [(fd, data)] }

/-- The file behind a descriptor moves on within the epoch. -/
def transfer (s : State) (fd : Int) (n : Nat) : State :=
  { s.move fd n with moves := s.moves ++ [(s.description fd, n)] }

def addCall (s : State) (c : Call) : State := { s with epoch := s.epoch ++ [c] }

/-- One descriptor of `cleanClosedFiles`; one without an entry is not expected. -/
def cleanClosed (s : State) (fd : Int) : Option State :=
  if (s.find fd).isSome then some { s with filesMap := s.filesMap.eraseP (·.1 == fd) } else none

/-- `fops::updateOpenedFiles`. -/
def updateOpenedFiles (s : State) : State :=
  { s with filesMap := s.filesMap.map fun e => (e.1, { e.2 with pos := s.offset (s.description e.2.fd) }) }

/-- `syscalls::epochEndWell`. -/
def epochEndWell (s : State) : Option State := do
  let s ← s.closeList.foldlM cleanClosed s
  some s.updateOpenedFiles

def epochBegin (s : State) : State :=
  { s with closeList := [], epoch := [], moves := [], begun := s.filesMap.map (·.1), beginOffset := s.offset }

/-- A call between the end of an epoch and the start of the next one. -/
def commit (s : State) (call : State → State) : Option State := do
  let s ← s.epochEndWell
  some (call s).epochBegin

/-- `saveFd`, after the real `open`. -/
def saveFd (s : State) (fd : Int) (d : Nat) : State :=
  if fd ≠ -1 then
    { s with
      filesMap := s.filesMap ++ [(fd, ⟨fd, 0⟩)]
      description := Function.update s.description fd d
      offset := Function.update s.offset d 0 }
  else s

/-- A new descriptor and a new open file are not those of a file in the map: these are all open. -/
def isFresh (s : State) (fd : Int) (d : Nat) : Bool :=
  (s.find fd).isNone && s.filesMap.all fun e => s.description e.1 != d

/-- A call outside of a rollback. -/
def exec (s : State) (c : Call) : Option State :=
  match c with
  | .open ret d => if ret = -1 ∨ s.isFresh ret d then some ((s.saveFd ret d).addCall c) else none
  | .close fd =>
    if (s.find fd).isSome then
      if fd = 0 ∨ fd = 1 ∨ fd = 2 then some (s.addCall c)
      else some ({ s with closeList := s.closeList ++ [fd] }.addCall c)
    else s.commit id
  | .read fd n => if s.checkPermission fd then some ((s.transfer fd n).addCall c) else s.commit fun s => s.move fd n
  | .write fd data => s.commit fun s => (s.emit fd data).move fd data.length
  | .writev fd data =>
    if s.checkPermission fd then some (((s.emit fd data).transfer fd data.length).addCall c)
    else s.commit fun s => (s.emit fd data).move fd data.length
  | .lseek fd pos => s.commit fun s => s.setOffset (s.description fd) pos
  | .other true => s.commit id
  | .other false => some (s.addCall c)

/-- `xrun::rollback` for the files: it calls `_memory.rollback` and `xthread::prepareRollback`, which leave them alone.
    `syscalls::prepareRollback` has no caller. -/
def rollback (s : State) : State := s

/-- A call in the replay. One that ends the epoch does not return (`xrun::epochEnd`). -/
def replayCall (s : State) : Call → State
  | .open ret _ =>
    match s.find ret with
    | some thisFile => s.setOffset (s.description thisFile.fd) thisFile.pos
    | none => s
  | .read fd n => if s.checkPermission fd then s.move fd n else s
  | .writev fd data => if s.checkPermission fd then (s.emit fd data).move fd data.length else s
  | .close _ | .write _ _ | .lseek _ _ | .other _ => s

def replay (s : State) (calls : List Call) : State := calls.foldl replayCall s

/-- Nothing is open, and the first epoch has begun. -/
structure Began (s : State) : Prop where
  filesMap : s.filesMap = []
  closeList : s.closeList = []
  epoch : s.epoch = []
  moves : s.moves = []
  begun : s.begun = []

end State

def system : Transition.System State Call where
  init := State.Began
  step s c s' := s.exec c = some s'

end Files

end DoubleTake
