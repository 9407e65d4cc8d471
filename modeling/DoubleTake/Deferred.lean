import Mathlib.Logic.Function.Basic
import DoubleTake.Lib.Transition

/-! Calls that are put off to the end of the epoch (`fops.hh`, `sysrecord.hh`, `threadinfo.hh`, `xrun::epochBegin`): closes
    of files and directories, and `munmap`. Each thread keeps lists of its own; a slot of the thread table is used again
    after its thread has been reaped. The thread that ends an epoch goes step by step, and the calls of the others may come
    between its steps: a thread that has been woken in `cond_wait` is not stopped. -/

namespace DoubleTake

namespace Deferred

/-- The entry of a key is found, closed and erased: what has been closed, and what is left of the map. -/
def cleanEntry {κ ν : Type} [DecidableEq κ] (key : κ) (map : List (κ × ν)) : Option ((κ × ν) × List (κ × ν)) := do
  let value ← map.lookup key
  some ((key, value), map.eraseP (·.1 == key))

/-- One loop of `fops::cleanClosedFiles`, with the keys on the list and the map they are looked up in: `null` is passed
    over, any other key has an entry. What is closed, and what is left of the map. -/
def cleanClosed {κ ν : Type} [DecidableEq κ] (null : κ) : List κ → List (κ × ν) → Option (List (κ × ν) × List (κ × ν))
  | [], map => some ([], map)
  | key :: keys, map =>
    if key = null then cleanClosed null keys map
    else do
      let (entry, map) ← cleanEntry key map
      let (closed, map) ← cleanClosed null keys map
      some (entry :: closed, map)

/-- The arguments of `munmap`. -/
structure Region where
  addr : Nat
  length : Nat
  deriving DecidableEq, Repr

inductive Call where
  /-- `open`, `fopen`, and `fcntl` with `F_DUPFD`, with the descriptor and the stream that the operating system gives. -/
  | open (t : Nat) (fd : Int) (file : Option Nat)
  /-- `dup` and `dup2`, with the descriptor that the operating system gives. -/
  | dup (t : Nat) (oldfd ret : Int)
  | dup2 (t : Nat) (oldfd newfd ret : Int)
  | opendir (t : Nat) (dir : Nat)
  /-- `close`, which has no stream, and `fclose`. -/
  | close (t : Nat) (fd : Int) (fp : Option Nat)
  | closedir (t : Nat) (dir : Nat)
  | munmap (t : Nat) (region : Region)
  | threadCreate (t u : Nat)
  /-- The thread has returned from its start routine. -/
  | finish (t : Nat)
  /-- `thread_join`, up to `hasJoined`, and its `deferSync`. -/
  | join (t u : Nat)
  | deferSync (t u : Nat)
  /-- `thread_cancel`, after its commit. -/
  | cancel (t u : Nat)
  /-- A call that ends the epoch. -/
  | commit (t : Nat)
  /-- The next step of the thread that ends the epoch. -/
  | go (t : Nat)
  deriving DecidableEq, Repr

/-- What is closed: a descriptor, or a directory. -/
abbrev Key := Int ⊕ Nat

/-- `fileInfo` and `dirInfo`, numbered as they have been allocated, with the stream and the directory. -/
structure FileInfo where
  number : Nat
  origStream : Option Nat
  deriving DecidableEq, Repr

structure DirInfo where
  number : Nat
  dir : Nat
  deriving DecidableEq, Repr

/-- A close that has returned 0, with how often the same had really been closed before, and with the entries that it had. -/
structure Closed where
  thread : Nat
  key : Key
  before : Nat
  entries : List Nat
  deriving DecidableEq, Repr

/-- Where the thread `t` is that ends the epoch. -/
inductive Stage where
  /-- No thread ends the epoch. -/
  | none
  /-- All checks have been made; the two loops of `cleanClosedFiles`. -/
  | files (t : Nat)
  | dirs (t : Nat)
  /-- The loop of `xrun::epochBegin`, at position `i` of the list of threads. -/
  | next (t i : Nat)
  /-- `SysRecord::epochBegin` of the thread `u` there: its first loop, and what comes behind it. -/
  | drain (t i u : Nat)
  | reset (t i u : Nat)
  deriving DecidableEq, Repr

def Stage.committer : Stage → Option Nat
  | .none => .none
  | .files t | .dirs t | .next t _ | .drain t _ _ | .reset t _ _ => some t

/-- The thread whose `munmap` list is drained. -/
def Stage.unmaps : Stage → Option Nat
  | .drain _ _ u | .reset _ _ u => some u
  | .none | .files _ | .dirs _ | .next _ _ => .none

structure State where
  alive : List Nat
  finished : Nat → Bool
  hasJoined : Nat → Bool
  deferSyncs : List Nat
  stage : Stage
  /-- The three lists that each thread keeps in `syslist`. -/
  fileClose : Nat → List Int
  dirClose : Nat → List Nat
  munmap : Nat → List Region
  filesMap : List (Int × FileInfo)
  dirsMap : List (Nat × DirInfo)
  /-- How many entries there have been. -/
  numbers : Nat
  /-- What has really been closed and unmapped. -/
  filesClosed : List (Int × FileInfo)
  dirsClosed : List (Nat × DirInfo)
  unmapped : List Region
  /-- What the threads have closed in this epoch, as the results of the calls have it; what they have passed to `munmap` in this
      epoch, and in those that have ended. For each thread, the epoch ends where its lists are started anew or passed over. -/
  closed : List Closed
  passed : List (Nat × Region)
  due : List Region

namespace State

def running (s : State) (t : Nat) : Bool := decide (t ∈ s.alive) && !s.finished t

/-- `_filesMap.insert` and `_dirsMap.insert` of a new entry. -/
def insertFile (s : State) (fd : Int) (origStream : Option Nat) : State :=
  { s with filesMap := s.filesMap ++ [(fd, ⟨s.numbers, origStream⟩)], numbers := s.numbers + 1 }

def insertDir (s : State) (dir : Nat) : State :=
  { s with dirsMap := s.dirsMap ++ [(dir, ⟨s.numbers, dir⟩)], numbers := s.numbers + 1 }

/-- `fops::saveFd`, after the real `open` or `fopen`. -/
def saveFd (s : State) (fd : Int) (file : Option Nat) : State := if fd ≠ -1 then s.insertFile fd file else s

/-- `fops::saveDupFd`. Without an entry of the old descriptor it ends in `assert(0)`. -/
def saveDupFd (s : State) (oldfd newfd : Int) : Option State :=
  if newfd ≠ -1 then do
    let thisFile ← s.filesMap.lookup oldfd
    some (s.insertFile newfd thisFile.origStream)
  else some s

/-- `fops::saveDir`; 0 is the null pointer. -/
def saveDir (s : State) (dir : Nat) : State := if dir ≠ 0 then s.insertDir dir else s

/-- `SysRecord::insertList` on the list of closed files. -/
def insertFileClose (s : State) (t : Nat) (fd : Int) : State :=
  { s with fileClose := Function.update s.fileClose t (s.fileClose t ++ [fd]) }

def insertDirClose (s : State) (t : Nat) (dir : Nat) : State :=
  { s with dirClose := Function.update s.dirClose t (s.dirClose t ++ [dir]) }

/-- `fops::closeFile`. Without an entry it reads through a pointer that has not been set. -/
def closeFile (s : State) (t : Nat) (fd : Int) (fp : Option Nat) : Option (State × Int) :=
  if fd = 0 ∨ fd = 1 ∨ fd = 2 then some (s, 0)
  else do
    let thisFile ← s.filesMap.lookup fd
    some (s.insertFileClose t fd, if fp ≠ thisFile.origStream then -1 else 0)

/-- `fops::closeDir`. Without an entry it reads through a null pointer. -/
def closeDir (s : State) (t : Nat) (dir : Nat) : Option (State × Int) := do
  let thisDir ← s.dirsMap.lookup dir
  some (s.insertDirClose t dir, if dir ≠ thisDir.dir then -1 else 0)

/-- How often it has really been closed. -/
def realCloses (s : State) : Key → Nat
  | .inl fd => (s.filesClosed.map (·.1)).count fd
  | .inr dir => (s.dirsClosed.map (·.1)).count dir

/-- The entries that it has in `_filesMap` or `_dirsMap`. -/
def entries (s : State) : Key → List Nat
  | .inl fd => (s.filesMap.filter (·.1 = fd)).map (·.2.number)
  | .inr dir => (s.dirsMap.filter (·.1 = dir)).map (·.2.number)

/-- How often it is on the lists of a thread. -/
def queued (s : State) (t : Nat) : Key → Nat
  | .inl fd => (s.fileClose t).count fd
  | .inr dir => (s.dirClose t).count dir

/-- A close that has returned 0. -/
def noteClose (s : State) (t : Nat) (key : Key) (ret : Int) : State :=
  if ret = 0 then { s with closed := s.closed ++ [⟨t, key, s.realCloses key, s.entries key⟩] } else s

/-- One round of the first loop of `fops::cleanClosedFiles`, with a descriptor from the list of the thread `t`, and with the others
    behind it on the list. -/
def cleanFile (s : State) (t : Nat) (fd : Int) (fds : List Int) : Option State :=
  let s := { s with fileClose := Function.update s.fileClose t fds }
  if fd = -1 then some s
  else do
    let (file, filesMap) ← cleanEntry fd s.filesMap
    some { s with filesMap := filesMap, filesClosed := s.filesClosed ++ [file] }

def cleanDir (s : State) (t : Nat) (dir : Nat) (dirs : List Nat) : Option State :=
  let s := { s with dirClose := Function.update s.dirClose t dirs }
  if dir = 0 then some s
  else do
    let (dir, dirsMap) ← cleanEntry dir s.dirsMap
    some { s with dirsMap := dirsMap, dirsClosed := s.dirsClosed ++ [dir] }

/-- What the thread has passed to `munmap` in this epoch. -/
def passedBy (s : State) (u : Nat) : List Region := (s.passed.filter (·.1 = u)).map (·.2)

/-- The epoch ends for a thread: what it has passed to `munmap` is due. -/
def endFor (s : State) (u : Nat) : State :=
  { s with
    closed := s.closed.filter (·.thread ≠ u)
    passed := s.passed.filter (·.1 ≠ u)
    due := s.due ++ s.passedBy u }

/-- `listInit` of all lists of a thread. -/
def initLists (s : State) (u : Nat) : State :=
  { s with
    fileClose := Function.update s.fileClose u []
    dirClose := Function.update s.dirClose u []
    munmap := Function.update s.munmap u [] }

/-- The loop of `xrun::epochBegin` leaves out a thread that has been joined. -/
def skipped (s : State) (t u : Nat) : Prop := u ≠ t ∧ s.hasJoined u = true

instance (s : State) (t u : Nat) : Decidable (s.skipped t u) := inferInstanceAs (Decidable (_ ∧ _))

/-- `threadmap::removeAliveThread`: the thread is in the list. -/
def removeAliveThread (s : State) (u : Nat) : Option State :=
  if u ∈ s.alive then some { s with alive := s.alive.erase u } else none

/-- `threadinfo::runDeferredSyncs`. -/
def runDeferredSyncs (s : State) : Option State := s.deferSyncs.foldlM removeAliveThread { s with deferSyncs := [] }

/-- The end of the loop: what threads have passed to `munmap` that are in the list no more is due. -/
def endForOthers (s : State) : State :=
  { s with
    passed := s.passed.filter (·.1 ∈ s.alive)
    due := s.due ++ (s.passed.filter (·.1 ∉ s.alive)).map (·.2) }

/-- The next step of the thread that ends the epoch. -/
def go (s : State) : Option State :=
  match s.stage with
  | .none => none
  | .files t =>
    match s.fileClose t with
    | fd :: fds => s.cleanFile t fd fds
    | [] => some { s with stage := .dirs t }
  | .dirs t =>
    match s.dirClose t with
    | dir :: dirs => s.cleanDir t dir dirs
    | [] => some { s with stage := .next t 0 }
  | .next t i =>
    match s.alive[i]? with
    | some u => some (if s.skipped t u then { s.endFor u with stage := .next t (i + 1) } else { s with stage := .drain t i u })
    | none => { s.endForOthers with stage := .none }.runDeferredSyncs
  | .drain t i u =>
    match s.munmap u with
    | region :: regions =>
      some { s with munmap := Function.update s.munmap u regions, unmapped := s.unmapped ++ [region] }
    | [] => some { s with stage := .reset t i u }
  | .reset t i u => some { (s.endFor u).initLists u with stage := .next t (i + 1) }

/-- `xrun::epochEnd` of one thread, when no other one is there. -/
def epochEnd (s : State) (t : Nat) : Option State := if s.stage = .none then some { s with stage := .files t } else none

/-- `threadinfo::threadInitialize`, for a slot that is free. -/
def threadInitialize (s : State) (u : Nat) : State :=
  { s with
    alive := s.alive ++ [u]
    finished := Function.update s.finished u false
    hasJoined := Function.update s.hasJoined u false
    fileClose := Function.update s.fileClose u []
    dirClose := Function.update s.dirClose u []
    munmap := Function.update s.munmap u []
    closed := s.closed.filter (·.thread ≠ u) }

/-- `SysRecord::recordMunmapOps`. -/
def recordMunmapOps (s : State) (t : Nat) (region : Region) : State :=
  { s with munmap := Function.update s.munmap t (s.munmap t ++ [region]), passed := s.passed ++ [(t, region)] }

/-- The calls of a running thread. A new descriptor and a new directory are not in the maps: what is there is open. While a thread
    ends the epoch, no other one begins to, and none goes on in `thread_cancel`. -/
def run (s : State) : Call → Option State
  | .open _ fd file => if s.filesMap.lookup fd = none then some (s.saveFd fd file) else none
  | .dup t oldfd ret =>
    if s.filesMap.lookup oldfd = none then s.epochEnd t
    else if s.filesMap.lookup ret = none then s.saveDupFd oldfd ret
    else none
  | .dup2 t oldfd newfd ret =>
    if s.filesMap.lookup newfd = none then s.epochEnd t
    else if ret = newfd ∨ ret = -1 then s.saveDupFd oldfd ret
    else none
  | .opendir _ dir => if s.dirsMap.lookup dir = none then some (s.saveDir dir) else none
  | .close t fd fp =>
    -- `syscalls::close` of something else than a file ends the epoch
    if fp = none ∧ s.filesMap.lookup fd = none then s.epochEnd t
    else (s.closeFile t fd fp).map fun r => r.1.noteClose t (.inl fd) r.2
  | .closedir t dir => (s.closeDir t dir).map fun r => r.1.noteClose t (.inr dir) r.2
  | .munmap t region => some (s.recordMunmapOps t region)
  | .threadCreate _ u => if u ∉ s.alive then some (s.threadInitialize u) else none
  | .finish t => some { s with finished := Function.update s.finished t true }
  | .join _ u =>
    if u ∈ s.alive ∧ s.finished u = true then some { s with hasJoined := Function.update s.hasJoined u true } else none
  | .deferSync _ u => if s.hasJoined u = true then some { s with deferSyncs := s.deferSyncs ++ [u] } else none
  | .cancel _ u => if s.stage = .none then s.removeAliveThread u else none
  | .commit t => s.epochEnd t
  | .go _ => none

end State

/-- The thread that makes a call. -/
def Call.thread : Call → Nat
  | .open t _ _ | .dup t _ _ | .dup2 t _ _ _ | .opendir t _ | .close t _ _ | .closedir t _ | .munmap t _ | .threadCreate t _
  | .finish t | .join t _ | .deferSync t _ | .cancel t _ | .commit t | .go t => t

namespace State

/-- The thread that ends the epoch does nothing else. -/
def exec (s : State) (c : Call) : Option State :=
  if s.stage.committer = some c.thread then if c = .go c.thread then s.go else none
  else if s.running c.thread then s.run c else none

/-- The first thread is there, and nothing has been opened or put off. -/
structure Began (s : State) : Prop where
  alive : s.alive = [0]
  finished : s.finished 0 = false
  hasJoined : s.hasJoined 0 = false
  deferSyncs : s.deferSyncs = []
  stage : s.stage = .none
  fileClose : ∀ t, s.fileClose t = []
  dirClose : ∀ t, s.dirClose t = []
  munmap : ∀ t, s.munmap t = []
  filesMap : s.filesMap = []
  dirsMap : s.dirsMap = []
  unmapped : s.unmapped = []
  closed : s.closed = []
  passed : s.passed = []
  due : s.due = []

end State

def system : Transition.System State Call where
  init := State.Began
  step s c s' := s.exec c = some s'

end Deferred

end DoubleTake
