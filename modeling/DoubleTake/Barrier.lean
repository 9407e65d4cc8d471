import Mathlib.Algebra.Group.Int.Defs
import Mathlib.Algebra.Group.Nat.Defs
import Mathlib.Logic.Function.Basic
import DoubleTake.Lib.Transition

/-! A barrier of the application (`xthread::barrier_init`, `barrier_wait`): one mutex, one condition variable and one
    counter for both the arrival and the departure of a round. One step of a thread is one part of a critical section,
    up to where the mutex is taken, released or waited for. -/

namespace DoubleTake

namespace Barrier

/-- Where a thread is in `barrier_wait`. -/
inductive Place where
  | outside
  /-- `pthread_mutex_lock`. -/
  | lock
  /-- The mutex is held: the loop that waits for an arrival phase, and the arrival. -/
  | arrival
  | arrivalSleep
  | arrivalRelock
  /-- The mutex is held: the loop that waits for the last thread of the round. -/
  | loop
  | loopSleep
  | loopRelock
  /-- The mutex is held: the departure. -/
  | leave
  | unlock
  deriving DecidableEq, Repr

/-- The barrier and its threads; how many times `waitingThreads` has been counted up and down. -/
structure State where
  maxThreads : Int
  waitingThreads : Int
  isArrivalPhase : Bool
  mutex : Option Nat
  place : Nat → Place
  arrivals : Nat
  departures : Nat

/-- A thread calls `barrier_wait`, goes on in it, or wakes up without a notification. -/
inductive Act where
  | wait (t : Nat)
  | go (t : Nat)
  | spurious (t : Nat)
  deriving DecidableEq, Repr

/-- The `int` that an `unsigned int` becomes. -/
def toInt (count : Nat) : Int := if count < 2 ^ 31 then count else count - 2 ^ 32

/-- `barrier_init`: the count is an `unsigned int`, and `maxThreads` an `int`. -/
def init (count : Nat) : State where
  maxThreads := toInt count
  waitingThreads := 0
  isArrivalPhase := true
  mutex := none
  place := fun _ => .outside
  arrivals := 0
  departures := 0

/-- What a wakeup does to a thread. -/
def Place.wake : Place → Place
  | .arrivalSleep => .arrivalRelock
  | .loopSleep => .loopRelock
  | p => p

namespace State

def setPlace (s : State) (t : Nat) (p : Place) : State := { s with place := Function.update s.place t p }

def setMutex (s : State) (o : Option Nat) : State := { s with mutex := o }

/-- `pthread_cond_broadcast`. -/
def broadcast (s : State) : State := { s with place := fun u => (s.place u).wake }

/-- The mutex is taken only when it is free. -/
def lock (s : State) (t : Nat) (next : Place) : Option State :=
  if s.mutex = none then some ((s.setMutex (some t)).setPlace t next) else none

/-- The arrival in an arrival phase: the last thread of the round ends the phase, the others wait for it. -/
def arrive (s : State) (t : Nat) : State :=
  let s := { s with waitingThreads := s.waitingThreads + 1, arrivals := s.arrivals + 1 }
  if s.waitingThreads ≥ s.maxThreads then ({ s with isArrivalPhase := false }.broadcast).setPlace t .leave
  else s.setPlace t .loop

/-- The departure: the last thread of the round begins the next arrival phase. -/
def depart (s : State) (t : Nat) : State :=
  let s := { s with waitingThreads := s.waitingThreads - 1, departures := s.departures + 1 }
  if s.waitingThreads = 0 then ({ s with isArrivalPhase := true }.broadcast).setPlace t .unlock
  else s.setPlace t .unlock

/-- The next step of the thread in `barrier_wait`; `none` when it cannot be made now. -/
def go (s : State) (t : Nat) : Option State :=
  match s.place t with
  | .outside => none
  | .lock => s.lock t .arrival
  | .arrival =>
    if s.isArrivalPhase then some (s.arrive t) else some ((s.setMutex none).setPlace t .arrivalSleep)
  | .arrivalSleep => none
  | .arrivalRelock => s.lock t .arrival
  | .loop => if s.isArrivalPhase then some ((s.setMutex none).setPlace t .loopSleep) else some (s.setPlace t .leave)
  | .loopSleep => none
  | .loopRelock => s.lock t .loop
  | .leave => some (s.depart t)
  | .unlock => some ((s.setMutex none).setPlace t .outside)

def exec (s : State) : Act → Option State
  | .wait t => if s.place t = .outside then some (s.setPlace t .lock) else none
  | .go t => s.go t
  | .spurious t =>
    if s.place t = .arrivalSleep ∨ s.place t = .loopSleep then some (s.setPlace t (s.place t).wake) else none

end State

/-- The threads at a barrier with the given count. -/
def system (count : Nat) : Transition.System State Act where
  init s := s = init count
  step s a s' := s.exec a = some s'

/-! ### Epochs

    The real barrier is in the internal heap: the memory that `xmemory::rollback` restores does not hold it. -/

def Act.thread : Act → Nat
  | .wait t | .go t | .spurious t => t

/-- The barrier over the epochs of its threads. -/
structure Epochs where
  barrier : State
  /-- The barrier at the begin of the epoch, or after `barrier_init` if that is in the epoch. -/
  start : State
  /-- `global_isRollback`. -/
  isRollback : Bool
  /-- The thread is outside of the barrier and waits for its context to be restored. -/
  parked : Nat → Bool
  /-- The status is `E_THREAD_ROLLBACK`. -/
  marked : Nat → Bool
  /-- The context has been restored. -/
  restored : Nat → Bool
  /-- A thread has gone on from its restored context to this barrier. -/
  replayed : Bool

inductive EpochAct where
  | barrier (a : Act)
  | epochBegin
  | rollback
  /-- What `wakeupOldWaitingThreads` or `thread_create` do for a thread; the condition variable has one thread to wake,
      which may be another one. -/
  | wakeup (t : Nat) (woken : Option Nat)
  | restore (t : Nat)
  deriving DecidableEq, Repr

namespace Epochs

/-- After `barrier_init`. -/
def init (count : Nat) : Epochs where
  barrier := Barrier.init count
  start := Barrier.init count
  isRollback := false
  parked := fun _ => false
  marked := fun _ => false
  restored := fun _ => false
  replayed := false

/-- The status is `E_THREAD_COND_WAITING`. -/
def condWaiting (s : Epochs) (t : Nat) : Prop := s.barrier.place t = .loopSleep ∨ s.barrier.place t = .loopRelock

instance (s : Epochs) (t : Nat) : Decidable (s.condWaiting t) := inferInstanceAs (Decidable (_ ∨ _))

/-- `stopAllThreads` is done with the threads: a thread in `barrier_wait` is unsafe, unless it waits in the loop. -/
def Stopped (threads : List Nat) (s : Epochs) : Prop := ∀ t ∈ threads, s.barrier.place t = .outside ∨ s.condWaiting t

instance (threads : List Nat) (s : Epochs) : Decidable (s.Stopped threads) := inferInstanceAs (Decidable (∀ t ∈ threads, _))

/-- A thread has the mutex again after `pthread_cond_wait` and leaves with `checkRollback`. -/
def checkRollback (s : Epochs) (t : Nat) : Option Epochs :=
  (s.barrier.lock t .loop).map fun b =>
    { s with
      barrier := (b.setMutex none).setPlace t .outside
      marked := Function.update s.marked t false
      restored := Function.update s.restored t true }

/-- `pthread_cond_signal`. -/
def signal (threads : List Nat) (s : Epochs) : Option Nat → Option Epochs
  | none => if ∀ u ∈ threads, (s.barrier.place u).wake = s.barrier.place u then some s else none
  | some u => some { s with barrier := s.barrier.setPlace u (s.barrier.place u).wake }

def exec (threads : List Nat) (s : Epochs) : EpochAct → Option Epochs
  | .barrier a =>
    if a.thread ∈ threads ∧ s.parked a.thread = false then
      if a = .go a.thread ∧ s.barrier.place a.thread = .loopRelock ∧ s.marked a.thread then s.checkRollback a.thread
      else (s.barrier.exec a).map fun b => { s with barrier := b, replayed := s.replayed || s.restored a.thread }
    else none
  | .epochBegin => if s.isRollback = false ∧ s.Stopped threads then some { s with start := s.barrier } else none
  | .rollback =>
    if s.isRollback = false ∧ s.Stopped threads then
      some { s with isRollback := true, parked := fun t => decide (s.barrier.place t = .outside) }
    else none
  | .wakeup t woken =>
    if s.isRollback = true ∧ s.condWaiting t then
      { s with marked := Function.update s.marked t true }.signal threads woken
    else none
  | .restore t =>
    if s.parked t = true then
      some { s with parked := Function.update s.parked t false, restored := Function.update s.restored t true }
    else none

end Epochs

/-- The threads at a barrier with the given count, over the epochs. -/
def epochs (count : Nat) (threads : List Nat) : Transition.System Epochs EpochAct where
  init s := s = Epochs.init count
  step s a s' := s.exec threads a = some s'

end Barrier

end DoubleTake
