import Mathlib.Logic.Function.Basic
import DoubleTake.Lib.Transition

/-! The table of threads (`threadinfo.hh`, `threadmap.hh`): slots that are allocated round robin, the list of alive threads,
    and the joined threads and destroyed variables whose end is put off to the next commit. -/

namespace DoubleTake

namespace ThreadInfo

def MAX_ALIVE_THREADS : Nat := 128

def MAX_REAPABLE_THREADS : Nat := MAX_ALIVE_THREADS - 10

inductive SyncVariableType where
  | thread
  | cond
  | mutex
  | barrier
  deriving DecidableEq, Repr

/-- `struct deferSyncVariable`; a thread is given by its slot. -/
structure DeferSyncVariable where
  syncVarType : SyncVariableType
  ptr : Nat
  deriving DecidableEq, Repr

structure State where
  aliveThreads : Int
  reapableThreads : Int
  totalThreads : Nat
  threadIndex : Nat
  deferSyncs : List DeferSyncVariable
  /-- The slots of `_threads`. -/
  available : Nat → Bool
  /-- `_alivethreads`, with the slot of each thread. -/
  alive : List Nat

/-- After `threadinfo::initialize` and `threadmap::initialize`. -/
def initialized : State where
  aliveThreads := 0
  reapableThreads := 0
  totalThreads := MAX_ALIVE_THREADS
  threadIndex := 0
  deferSyncs := []
  available := fun _ => true
  alive := []

namespace State

def nextIndex (s : State) : State := { s with threadIndex := (s.threadIndex + 1) % s.totalThreads }

/-- The slot at `_threadIndex` is taken. -/
def takeSlot (s : State) : State :=
  { s with available := Function.update s.available s.threadIndex false, aliveThreads := s.aliveThreads + 1 }.nextIndex

/-- The loop of `allocThreadIndex`; `none`: the assertion fails, the index is back at `origindex`. This is the case after
    `_totalThreads` rounds. -/
def allocLoop (origindex : Nat) : Nat → State → Option (Nat × State)
  | 0, _ => none
  | rounds + 1, s =>
    if s.available s.threadIndex then some (s.threadIndex, s.takeSlot)
    else if s.nextIndex.threadIndex = origindex then none
    else allocLoop origindex rounds s.nextIndex

def allocThreadIndex (s : State) : Option (Int × State) :=
  if s.aliveThreads ≥ s.totalThreads then some (-1, s)
  else (allocLoop s.threadIndex s.totalThreads s).map fun r => (r.1, r.2)

def insertAliveThread (s : State) (t : Nat) : State := { s with alive := s.alive ++ [t] }

/-- `none`: the thread is not in the list, and the program is aborted. -/
def removeAliveThread (s : State) (t : Nat) : Option State :=
  if t ∈ s.alive then some { s with alive := s.alive.erase t, available := Function.update s.available t true } else none

/-- The slot of `thread_create`, and of `registerInitialThread`; `none`: an assertion fails. -/
def threadCreate (s : State) : Option State :=
  match s.allocThreadIndex with
  | none => none
  | some (tindex, s) => if tindex = -1 then none else some (s.insertAliveThread tindex.toNat)

def incrementReapableThreads (s : State) : State := { s with reapableThreads := s.reapableThreads + 1 }

/-- With the result `toReapThreads`. -/
def deferSync (s : State) (ptr : Nat) (type : SyncVariableType) : Bool × State :=
  let s := { s with deferSyncs := s.deferSyncs ++ [⟨type, ptr⟩] }
  if type = .thread then
    let s := s.incrementReapableThreads
    (decide (s.reapableThreads ≥ (MAX_REAPABLE_THREADS : Int)) && s.aliveThreads - s.reapableThreads == 1, s)
  else (false, s)

/-- The thread is gone: in `cancelAliveThread` and in `runDeferredSyncs`. -/
def reap (s : State) (t : Nat) : Option State :=
  (s.removeAliveThread t).map fun s =>
    { s with aliveThreads := s.aliveThreads - 1, reapableThreads := s.reapableThreads - 1 }

def cancelAliveThread (s : State) (t : Nat) : Option State := s.reap t

/-- One entry in the loop of `runDeferredSyncs`. -/
def runDeferredSync (s : State) (v : DeferSyncVariable) : Option State :=
  match v.syncVarType with
  | .thread => s.reap v.ptr
  | .cond | .mutex | .barrier => some s

def runDeferredSyncs (s : State) : Option State := s.deferSyncs.foldlM runDeferredSync { s with deferSyncs := [] }

/-- The thread is alive and nobody has joined it. -/
def unjoined (s : State) (t : Nat) : Bool := decide (t ∈ s.alive) && decide (⟨.thread, t⟩ ∉ s.deferSyncs)

/-- The end of `thread_join`: the commit, when the joined threads have to be reaped now. -/
def threadJoin (s : State) (t : Nat) : Option State :=
  match s.deferSync t .thread with
  | (true, s) => s.runDeferredSyncs
  | (false, s) => some s

end State

/-- What happens to the table. -/
inductive Act where
  | create
  | join (t : Nat)
  /-- A condition variable, a mutex or a barrier is destroyed. -/
  | destroy (ptr : Nat) (type : SyncVariableType)
  | cancel (t : Nat)
  | runDeferredSyncs
  deriving DecidableEq, Repr

/-- Only an alive thread that has not been joined is joined or cancelled. -/
def State.exec (s : State) : Act → Option State
  | .create => s.threadCreate
  | .join t => if s.unjoined t then some (s.deferSync t .thread).2 else none
  | .destroy ptr type => if type ≠ .thread then some (s.deferSync ptr type).2 else none
  | .cancel t => if s.unjoined t then s.cancelAliveThread t else none
  | .runDeferredSyncs => s.runDeferredSyncs

def system : Transition.System State Act where
  init s := s = initialized
  step s a s' := s.exec a = some s'

/-- The calls of one epoch. -/
inductive Call where
  | threadCreate
  | threadJoin (t : Nat)
  deriving DecidableEq, Repr

def State.call (s : State) : Call → Option State
  | .threadCreate => s.threadCreate
  | .threadJoin t => if s.unjoined t then s.threadJoin t else none

/-- The threads that are alive and have not been joined. -/
def State.unjoinedThreads (s : State) : Nat := s.alive.countP s.unjoined

/-- The calls from the time on that the first thread is there. -/
def calls : Transition.System State Call where
  init s := initialized.threadCreate = some s
  step s c s' := s.call c = some s'

end ThreadInfo

end DoubleTake
