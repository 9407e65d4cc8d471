import DoubleTake.Deferred

/-! The files and directories that one thread opens and closes (`fops.hh`, and its callers in `syscalls.hh`): what is kept of
    each of them, which closes are put off, and what the library is asked to close when the epoch has ended well. -/

namespace DoubleTake

namespace Fops

/-- `fileInfo`, with the stream of a file and the block of the internal heap that holds a copy of the stream. -/
structure FileInfo where
  fd : Int
  backupStream : Option Nat
  origStream : Option Nat
  deriving DecidableEq, Repr

structure DirInfo where
  backupDir : Nat
  dir : Nat
  deriving DecidableEq, Repr

/-- `recordFile`. -/
structure RecordFile where
  fd : Int
  ret : Int
  deriving DecidableEq, Repr

/-- What `cleanClosedFiles` calls. -/
inductive Real where
  | close (fd : Int)
  | fclose (stream : Nat)
  | closedir (dir : Nat)
  deriving DecidableEq, Repr

/-- What is open: descriptors, streams with their descriptors, and directories. `calls` are those of `cleanClosedFiles` so far. -/
structure Opened where
  fds : List Int
  streams : List (Nat × Int)
  dirs : List Nat
  calls : List Real

namespace Opened

def close (o : Opened) (fd : Int) : Opened := { o with fds := o.fds.filter (· ≠ fd) }

/-- A stream that is open is closed with its descriptor. -/
def fclose (o : Opened) (stream : Nat) : Opened :=
  match o.streams.lookup stream with
  | some fd => { o with fds := o.fds.filter (· ≠ fd), streams := o.streams.filter (·.1 ≠ stream) }
  | none => o

def closedir (o : Opened) (dir : Nat) : Opened := { o with dirs := o.dirs.filter (· ≠ dir) }

def call (o : Opened) (r : Real) : Opened :=
  let o := match r with
    | .close fd => o.close fd
    | .fclose stream => o.fclose stream
    | .closedir dir => o.closedir dir
  { o with calls := o.calls ++ [r] }

/-- A new descriptor, or -1. -/
def newFd (o : Opened) (fd : Int) : Opened := if fd ≠ -1 then { o with fds := o.fds ++ [fd] } else o

end Opened

structure State where
  filesMap : List (Int × FileInfo)
  dirsMap : List (Nat × DirInfo)
  /-- The lists of the closes that have been put off. -/
  fileClose : List RecordFile
  dirClose : List Nat
  /-- The block of the internal heap that the next copy gets. -/
  nextBlock : Nat
  os : Opened
  /-- The closes on the list, with the streams that they have been given. -/
  closes : List (Int × Option Nat)

/-- The calls of the thread, with what the real ones return. `dir` is 0 for a null pointer. -/
inductive Call where
  | open (ret : Int)
  | fopen (file : Option (Nat × Int))
  | dup (oldfd ret : Int)
  | opendir (dir : Nat)
  | close (fd : Int)
  | fclose (fp : Nat)
  | closedir (dir : Nat)
  /-- Another call that ends the epoch. -/
  | commit
  deriving DecidableEq, Repr

namespace State

def isNormalFile (s : State) (fd : Int) : Bool := (s.filesMap.lookup fd).isSome

def checkPermission (s : State) (fd : Int) : Bool :=
  if fd ≤ 0 then false
  else if fd = 1 ∨ fd = 2 ∨ fd = 3 then true
  else s.isNormalFile fd

/-- `saveFd`, with a copy of the stream when there is one. -/
def saveFd (s : State) (fd : Int) (file : Option Nat) : State :=
  if fd ≠ -1 then
    { s with
      filesMap := s.filesMap ++ [(fd, ⟨fd, file.map fun _ => s.nextBlock, file⟩)]
      nextBlock := s.nextBlock + 1 }
  else s

def saveFopen (s : State) : Option (Nat × Int) → State
  | some (stream, fd) => s.saveFd fd (some stream)
  | none => s.saveFd (-1) none

/-- `saveDupFd`: all of the old entry but its descriptor and, when there is one, the copy of its stream. -/
def saveDupFd (s : State) (oldfd newfd : Int) : Option State :=
  if newfd ≠ -1 then do
    let thisFile ← s.filesMap.lookup oldfd
    some { s with
      filesMap := s.filesMap ++ [(newfd, ⟨newfd, thisFile.backupStream.map fun _ => s.nextBlock, thisFile.origStream⟩)]
      nextBlock := s.nextBlock + 1 }
  else some s

def saveDir (s : State) (dir : Nat) : State :=
  if dir ≠ 0 then { s with dirsMap := s.dirsMap ++ [(dir, ⟨s.nextBlock, dir⟩)], nextBlock := s.nextBlock + 1 } else s

/-- `recordFileOps` for a close. -/
def recordClose (s : State) (fd : Int) (fp : Option Nat) (ret : Int) : State :=
  { s with fileClose := s.fileClose ++ [⟨fd, ret⟩], closes := s.closes ++ [(fd, fp)] }

/-- `closeFile`. The pointer `thisFile` is not set before the entry is found: `unset` is what it leads to, if anything. -/
def closeFile (s : State) (unset : Option FileInfo) (fd : Int) (fp : Option Nat) : Option (State × Int) :=
  if fd = 0 ∨ fd = 1 ∨ fd = 2 then some (s, 0)
  else do
    let ret := if s.isNormalFile fd then 0 else -1
    let thisFile ← (s.filesMap.lookup fd).or unset
    let ret := if fp ≠ thisFile.origStream then -1 else ret
    some (s.recordClose fd fp ret, ret)

/-- `closeDir`, which reads through a null pointer when no entry is found. -/
def closeDir (s : State) (dir : Nat) : Option (State × Int) :=
  if dir = 0 then none
  else do
    let thisDir ← s.dirsMap.lookup dir
    some ({ s with dirClose := s.dirClose ++ [dir] }, if dir ≠ thisDir.dir then -1 else 0)

/-- An entry of `_filesMap` is closed. A stream has a copy. -/
def closeEntry (o : Opened) (e : Int × FileInfo) : Option Opened :=
  match e.2.origStream with
  | some stream => if e.2.backupStream.isSome then some (o.call (.fclose stream)) else none
  | none => some (o.call (.close e.1))

def closeDirEntry (o : Opened) (e : Nat × DirInfo) : Option Opened :=
  if e.1 = e.2.dir then some (o.call (.closedir e.1)) else none

/-- `cleanClosedFiles`, which drains both lists. A key without an entry runs into `assert(0)`. -/
def cleanClosedFiles (s : State) : Option State := do
  let (files, filesMap) ← Deferred.cleanClosed (-1) (s.fileClose.map (·.fd)) s.filesMap
  let os ← files.foldlM closeEntry s.os
  let (dirs, dirsMap) ← Deferred.cleanClosed 0 s.dirClose s.dirsMap
  let os ← dirs.foldlM closeDirEntry os
  some { s with filesMap := filesMap, dirsMap := dirsMap, fileClose := [], dirClose := [], os := os }

/-- The end of an epoch without a rollback, and the start of the next one. -/
def commit (s : State) : Option State := do
  let s ← s.cleanClosedFiles
  some { s with closes := [] }

def exec (s : State) : Call → Option State
  | .open ret => some ({ s with os := s.os.newFd ret }.saveFd ret none)
  | .fopen none => some s
  | .fopen (some (stream, fd)) =>
    some ({ s with os := { s.os with fds := s.os.fds ++ [fd], streams := s.os.streams ++ [(stream, fd)] } }.saveFopen
      (some (stream, fd)))
  | .dup oldfd ret =>
    if s.isNormalFile oldfd then { s with os := s.os.newFd ret }.saveDupFd oldfd ret
    else do
      let s ← s.commit
      some { s with os := s.os.newFd ret }
  | .opendir dir =>
    some ({ s with os := if dir ≠ 0 then { s.os with dirs := s.os.dirs ++ [dir] } else s.os }.saveDir dir)
  | .close fd =>
    if s.isNormalFile fd then (s.closeFile none fd none).map Prod.fst
    else do
      let s ← s.commit
      some { s with os := s.os.close fd }
  | .fclose fp => do
    let fd ← s.os.streams.lookup fp
    (s.closeFile none fd (some fp)).map Prod.fst
  | .closedir dir => (s.closeDir dir).map Prod.fst
  | .commit => s.commit

/-- What the real calls may return, and what the program may pass: a new descriptor, stream or directory is none that is open,
    and `fclose` is given a stream that is open. -/
def Legal (s : State) : Call → Prop
  | .open ret | .dup _ ret => ret = -1 ∨ 0 ≤ ret ∧ ret ∉ s.os.fds
  | .fopen none => True
  | .fopen (some (stream, fd)) => (0 ≤ fd ∧ fd ∉ s.os.fds) ∧ stream ∉ s.os.streams.map (·.1)
  | .opendir dir => dir ∉ s.os.dirs
  | .fclose fp => fp ∈ s.os.streams.map (·.1)
  | .close _ | .closedir _ | .commit => True

instance (s : State) : (c : Call) → Decidable (s.Legal c)
  | .open _ | .dup _ _ => inferInstanceAs (Decidable (_ ∨ _))
  | .fopen none => inferInstanceAs (Decidable True)
  | .fopen (some _) => inferInstanceAs (Decidable (_ ∧ _))
  | .opendir _ => inferInstanceAs (Decidable (_ ∉ _))
  | .fclose _ => inferInstanceAs (Decidable (_ ∈ _))
  | .close _ | .closedir _ | .commit => inferInstanceAs (Decidable True)

/-- Nothing has been opened through `fops`. Any descriptors and streams may be open. -/
structure Began (s : State) : Prop where
  filesMap : s.filesMap = []
  dirsMap : s.dirsMap = []
  fileClose : s.fileClose = []
  dirClose : s.dirClose = []
  closes : s.closes = []
  streams : (s.os.streams.map (·.1)).Nodup

/-- The call ends the epoch. -/
def endsEpoch (s : State) : Call → Bool
  | .close fd | .dup fd _ => !s.isNormalFile fd
  | .commit => true
  | .open _ | .fopen _ | .opendir _ | .fclose _ | .closedir _ => false

end State

def system : Transition.System State Call where
  init := State.Began
  step s c s' := s.Legal c ∧ s.exec c = some s'

end Fops

end DoubleTake
