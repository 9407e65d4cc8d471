import DoubleTake.Threads

/-! A thread ends the epoch (`xrun::epochEnd`, `xrun::epochBegin`): it stops the other threads with a signal
    (`stopAllThreads`, `sigusr2Handler`, `globalinfo.hh`), commits or rolls back, and lets them go. Any thread may do so
    at any time. One step is one access to what the threads share, or what is done under one lock. -/

namespace DoubleTake

inductive SystemPhase where
  | init
  | epochEnd
  | epochBegin
  deriving DecidableEq, Repr

namespace Commit

/-- Where a thread is in `sigusr2Handler`: from `lock` to `unlock` in `global_waitForNotification`. -/
inductive Handler where
  | lock
  /-- `g_mutexSignalhandler` is held: the thread is counted. -/
  | arrive
  /-- `g_mutexSignalhandler` is held: `while(global_isEpochEnd())`. -/
  | loop
  | asleep
  | relock
  | leave
  | unlock
  /-- The test of the phase, then the branch for a rollback. -/
  | resume
  | rollback
  deriving DecidableEq, Repr

/-- Where a thread sleeps in its own code. -/
inductive Sleep where
  /-- `cond_wait_core` and `barrier_wait`. -/
  | cond
  /-- `thread_join`. -/
  | join (joinee : Nat)
  /-- The end of `startThread`. -/
  | reaping
  deriving DecidableEq, Repr

/-- Where a thread is in `epochEnd` and `epochBegin`. -/
inductive Committer where
  /-- `stopAllThreads`: the loop is over the threads that are left. -/
  | checkWaiters
  | setEpochEnd
  | globalLock
  | stop (threads : List Nat)
  /-- `global_waitThreadsStops`. -/
  | waitLock
  | waitLoop
  | waitSleep
  | waitRelock
  | waitUnlock
  | globalUnlock
  /-- `stopAllThreads` has returned. -/
  | stopped
  /-- `while(1)`. -/
  | spin
  /-- `rollback`, and in it `xthread::prepareRollback`. -/
  | rollback
  | setRollback
  | wakeupOldWaitingThreads (threads : List Nat)
  | globalWakeup
  | checkRollbackCurrent
  /-- `epochEndWell`. -/
  | epochEndWell
  /-- `xrun::epochBegin`: the loop is over the threads that are left. -/
  | begin (threads : List Nat)
  | reap (thread : Nat) (threads : List Nat)
  | runDeferredSyncs
  /-- `global_epochBegin`. -/
  | beginLock
  | beginNotify
  | beginSleep
  | beginRelock
  | beginUnlock
  /-- `_memory.epochBegin`, then `saveContext`. -/
  | backup
  | saveContext
  deriving DecidableEq, Repr

/-- Where a thread is in its own code. -/
inductive Place where
  /-- It is not created yet, or it has exited. -/
  | absent
  | program
  | asleep (w : Sleep)
  | woken (w : Sleep)
  /-- `thread_join`, after the joinee has finished. -/
  | deferSync (joinee : Nat)
  /-- With the threads that `stopAllThreads` has signalled. -/
  | committer (c : Committer) (killed : List Nat)
  deriving DecidableEq, Repr

def Committer.wake : Committer → Committer
  | .waitSleep => .waitRelock
  | .beginSleep => .beginRelock
  | c => c

def Place.wake : Place → Place
  | .asleep w => .woken w
  | .committer c k => .committer c.wake k
  | p => p

/-- `pthread_cond_signal` on `g_condCommitter`. -/
def Place.wakeCommitter : Place → Place
  | .committer c k => .committer c.wake k
  | p => p

def Handler.wake : Handler → Handler
  | .asleep => .relock
  | h => h

/-- What all threads share, and where each of them is. -/
structure State where
  phase : SystemPhase
  isRollback : Bool
  hasRollbacked : Bool
  waiters : Int
  waitersTotal : Int
  /-- `g_mutex` and `g_mutexSignalhandler`. -/
  mutex : Option Nat
  mutexSignalhandler : Option Nat
  alive : List Nat
  deferSyncs : List Nat
  place : Nat → Place
  handler : Nat → Option Handler
  /-- `SIGUSR2` has been sent and not been delivered. -/
  pending : Nat → Bool
  status : Nat → ThreadStatus
  isSafe : Nat → Bool
  isNewlySpawned : Nat → Bool
  hasJoined : Nat → Bool

/-- What happens next. The first ones are steps of the application. -/
inductive Act where
  | program (t : Nat)
  | mutexLock (t : Nat)
  | mutexUnlock (t : Nat)
  | condWait (t : Nat)
  | condSignal (t u : Nat)
  | threadCreate (t u : Nat)
  | threadJoin (t u : Nat)
  | finish (t : Nat)
  | epochEnd (t : Nat)
  /-- The thread goes on in its own code, or in the handler of the signal. -/
  | go (t : Nat)
  | deliver (t : Nat)
  | handle (t : Nat)
  /-- The checks at the end of the epoch have found an error, or none. -/
  | outcome (t : Nat) (error : Bool)
  /-- A wakeup without a notification, which a timeout is too. -/
  | spurious (t : Nat)
  | spuriousHandler (t : Nat)
  deriving DecidableEq, Repr

/-- The thread whose application makes the step. -/
def Act.application : Act → Option Nat
  | .program t | .mutexLock t | .mutexUnlock t | .condWait t | .condSignal t _ | .threadCreate t _ | .threadJoin t _ => some t
  | .finish t | .epochEnd t => some t
  | _ => none

namespace State

def setPlace (s : State) (t : Nat) (p : Place) : State := { s with place := Function.update s.place t p }

def setHandler (s : State) (t : Nat) (h : Option Handler) : State := { s with handler := Function.update s.handler t h }

def setPending (s : State) (t : Nat) (b : Bool) : State := { s with pending := Function.update s.pending t b }

def setStatus (s : State) (t : Nat) (x : ThreadStatus) : State := { s with status := Function.update s.status t x }

def setSafe (s : State) (t : Nat) (b : Bool) : State := { s with isSafe := Function.update s.isSafe t b }

def setSpawned (s : State) (t : Nat) (b : Bool) : State := { s with isNewlySpawned := Function.update s.isNewlySpawned t b }

def setJoined (s : State) (t : Nat) (b : Bool) : State := { s with hasJoined := Function.update s.hasJoined t b }

def setMutex (s : State) (o : Option Nat) : State := { s with mutex := o }

def setMutexSignalhandler (s : State) (o : Option Nat) : State := { s with mutexSignalhandler := o }

def setPhase (s : State) (p : SystemPhase) : State := { s with phase := p }

def setWaiters (s : State) (n : Int) : State := { s with waiters := n }

def setWaitersTotal (s : State) (n : Int) : State := { s with waitersTotal := n }

def setRollback (s : State) : State := { s with isRollback := true, hasRollbacked := true }

/-- The thread executes the application. -/
def running (s : State) (t : Nat) : Bool := s.place t = .program ∧ s.handler t = none

/-- `pthread_cond_signal` on `g_condCommitter`. -/
def signalCommitter (s : State) : State := { s with place := fun u => (s.place u).wakeCommitter }

/-- `pthread_cond_broadcast` on `g_condWaiters`. -/
def broadcastWaiters (s : State) : State := { s with handler := fun u => (s.handler u).map Handler.wake }

/-- A thread that waits for the end of `t` is woken up. -/
def wakeJoiners (s : State) (t : Nat) : State :=
  { s with place := fun u => if s.place u = .asleep (.join t) then .woken (.join t) else s.place u }

/-- The status of a thread that has stopped without a signal. -/
def waits (s : State) (u : Nat) : Bool :=
  s.status u = .waitForReaping ∨ s.status u = .joining ∨ s.status u = .condWaiting

/-- `rollbackCurrent`: the thread goes back to its context at the start of the epoch. -/
def rollbackCurrent (s : State) (t : Nat) : State := (s.setStatus t .running).setPlace t .program

def create (s : State) (u : Nat) : State :=
  ((((({ s with alive := s.alive ++ [u] }.setPlace u .program).setStatus u .running).setSafe u true).setSpawned u true).setJoined
    u false).setPending u false

/-- A thread goes on after a wakeup. -/
def wakeup (s : State) (t : Nat) : Sleep → State
  | .cond =>
    if s.status t = .rollback then s.rollbackCurrent t
    else ((s.setStatus t .running).setSafe t false).setPlace t .program
  | .join u =>
    if s.status u = .waitForReaping then
      if s.status t = .rollback then (s.setJoined u true).rollbackCurrent t
      else (((s.setJoined u true).setStatus t .running).setSafe t true).setPlace t (.deferSync u)
    else (s.setSafe t true).setPlace t (.asleep (.join u))
  | .reaping =>
    if s.status t = .exiting then s.setPlace t .absent
    else if s.status t = .rollback then s.rollbackCurrent t
    else s.setPlace t (.asleep .reaping)

/-- `wakeupOldWaitingThreads` for one thread. -/
def wakeupOld (s : State) (u : Nat) : State :=
  if s.isNewlySpawned u = false ∧ s.waits u then (s.setStatus u .rollback).setPlace u (s.place u).wake else s

/-- The loop of `stopAllThreads` for one thread: with the threads that have been signalled. -/
def kill (s : State) (u : Nat) (killed : List Nat) : State × List Nat :=
  if s.waits u then (s, killed) else (s.setPending u true, killed ++ [u])

/-- The next step of the thread in `epochEnd` and `epochBegin`; a failed assertion ends the program. -/
def commit (s : State) (t : Nat) (k : List Nat) : Committer → Option State
  | .checkWaiters => if s.waiters = 0 then some (s.setPlace t (.committer .setEpochEnd k)) else none
  | .setEpochEnd => some ((s.setPhase .epochEnd).setPlace t (.committer .globalLock k))
  | .globalLock =>
    if s.mutex = none then some ((s.setMutex (some t)).setPlace t (.committer (.stop s.alive) k)) else none
  | .stop [] => some (s.setPlace t (.committer (if k = [] then .globalUnlock else .waitLock) k))
  | .stop (u :: us) =>
    if u = t then some (s.setPlace t (.committer (.stop us) k))
    else if s.isSafe u then some ((s.kill u k).1.setPlace t (.committer (.stop us) (s.kill u k).2))
    else none
  | .waitLock =>
    if s.mutexSignalhandler = none then
      some (((s.setMutexSignalhandler (some t)).setWaitersTotal k.length).setPlace t (.committer .waitLoop k))
    else none
  | .waitLoop =>
    if s.waiters ≠ s.waitersTotal then some ((s.setMutexSignalhandler none).setPlace t (.committer .waitSleep k))
    else some (s.setPlace t (.committer .waitUnlock k))
  | .waitSleep => none
  | .waitRelock =>
    if s.mutexSignalhandler = none then
      some ((s.setMutexSignalhandler (some t)).setPlace t (.committer .waitLoop k))
    else none
  | .waitUnlock => some ((s.setMutexSignalhandler none).setPlace t (.committer .globalUnlock k))
  | .globalUnlock => some ((s.setMutex none).setPlace t (.committer .stopped k))
  | .stopped => none
  | .spin => none
  | .rollback => if s.hasRollbacked then none else some (s.setPlace t (.committer .setRollback k))
  | .setRollback => some (s.setRollback.setPlace t (.committer (.wakeupOldWaitingThreads s.alive) k))
  | .wakeupOldWaitingThreads [] => some (s.setPlace t (.committer .globalWakeup k))
  | .wakeupOldWaitingThreads (u :: us) =>
    some ((s.wakeupOld u).setPlace t (.committer (.wakeupOldWaitingThreads us) k))
  | .globalWakeup => some (s.broadcastWaiters.setPlace t (.committer .checkRollbackCurrent k))
  | .checkRollbackCurrent =>
    if s.isNewlySpawned t ∧ s.status t ≠ .rollback then none else some (s.rollbackCurrent t)
  | .epochEndWell => some (s.setPlace t (.committer (.begin s.alive) k))
  | .begin [] => some (s.setPlace t (.committer .runDeferredSyncs k))
  | .begin (u :: us) =>
    if u ≠ t ∧ s.hasJoined u then
      some (((s.setStatus u .exiting).setPlace u (s.place u).wake).setPlace t (.committer (.reap u us) k))
    else some ((s.setSpawned u false).setPlace t (.committer (.begin us) k))
  | .reap u us => if s.place u = .absent then some (s.setPlace t (.committer (.begin us) k)) else none
  | .runDeferredSyncs =>
    if s.mutex = none then
      some ({ s with alive := s.alive.filter (· ∉ s.deferSyncs), deferSyncs := [] }.setPlace t (.committer .beginLock k))
    else none
  | .beginLock =>
    if s.mutexSignalhandler = none then
      some ((s.setMutexSignalhandler (some t)).setPlace t (.committer .beginNotify k))
    else none
  -- The wait is not in a loop.
  | .beginNotify =>
    if s.waiters ≠ 0 then
      some (((s.setPhase .epochBegin).broadcastWaiters.setMutexSignalhandler none).setPlace t (.committer .beginSleep k))
    else some ((s.setPhase .epochBegin).broadcastWaiters.setPlace t (.committer .beginUnlock k))
  | .beginSleep => none
  | .beginRelock =>
    if s.mutexSignalhandler = none then
      some ((s.setMutexSignalhandler (some t)).setPlace t (.committer .beginUnlock k))
    else none
  | .beginUnlock => some ((s.setMutexSignalhandler none).setPlace t (.committer .backup k))
  | .backup => some (s.setPlace t (.committer .saveContext k))
  | .saveContext => some (s.setPlace t .program)

/-- The next step of the thread in its own code. -/
def go (s : State) (t : Nat) : Option State :=
  match s.place t with
  | .absent => none
  | .program => none
  | .asleep _ => none
  | .woken w => some (s.wakeup t w)
  | .deferSync u =>
    if s.mutex = none then some ({ s with deferSyncs := s.deferSyncs ++ [u] }.setPlace t .program) else none
  | .committer c k => s.commit t k c

/-- The next step of the thread in the handler. -/
def handle (s : State) (t : Nat) : Handler → Option State
  | .lock =>
    if s.mutexSignalhandler = none then some ((s.setMutexSignalhandler (some t)).setHandler t (some .arrive)) else none
  | .arrive =>
    let s := s.setWaiters (s.waiters + 1)
    some ((if s.waiters = s.waitersTotal then s.signalCommitter else s).setHandler t (some .loop))
  | .loop =>
    if s.phase = .epochEnd then some ((s.setMutexSignalhandler none).setHandler t (some .asleep))
    else some (s.setHandler t (some .leave))
  | .asleep => none
  | .relock =>
    if s.mutexSignalhandler = none then some ((s.setMutexSignalhandler (some t)).setHandler t (some .loop)) else none
  | .leave =>
    let s := s.setWaiters (s.waiters - 1)
    some ((if s.waiters = 0 then s.signalCommitter else s).setHandler t (some .unlock))
  | .unlock => some ((s.setMutexSignalhandler none).setHandler t (some .resume))
  | .resume =>
    if s.phase = .epochBegin then some (s.setHandler t none)
    else if s.isRollback then some (s.setHandler t (some .rollback))
    else none
  | .rollback =>
    if s.isNewlySpawned t ∧ s.status t ≠ .rollback then none else some ((s.setHandler t none).setPlace t .program)

def exec (s : State) : Act → Option State
  | .program t => if s.running t then some s else none
  | .mutexLock t => if s.running t then some (s.setSafe t false) else none
  | .mutexUnlock t => if s.running t then some (s.setSafe t true) else none
  | .condWait t =>
    if s.running t then some (((s.setStatus t .condWaiting).setSafe t true).setPlace t (.asleep .cond)) else none
  | .condSignal t u => if s.running t ∧ s.place u = .asleep .cond then some (s.setPlace u (.woken .cond)) else none
  | .threadCreate t u =>
    if s.running t ∧ s.mutex = none ∧ s.place u = .absent ∧ s.handler u = none ∧ u ∉ s.alive then some (s.create u) else none
  | .threadJoin t u =>
    if s.running t ∧ u ≠ t then some (((s.setStatus t .joining).setSafe t false).setPlace t (.woken (.join u))) else none
  | .finish t =>
    if s.running t then some (((s.setStatus t .waitForReaping).wakeJoiners t).setPlace t (.asleep .reaping)) else none
  | .epochEnd t => if s.running t then some (s.setPlace t (.committer .checkWaiters [])) else none
  | .go t => if s.handler t = none then s.go t else none
  | .deliver t =>
    if s.pending t ∧ s.handler t = none ∧ s.place t ≠ .absent ∧ s.phase = .epochEnd then
      some ((s.setPending t false).setHandler t (some .lock))
    else none
  | .handle t => (s.handler t).bind (s.handle t)
  | .outcome t error =>
    match s.place t with
    | .committer .stopped k =>
      if s.handler t = none then
        if s.isRollback then some (s.setPlace t (.committer .spin k))
        else some (s.setPlace t (.committer (if error then .rollback else .epochEndWell) k))
      else none
    | _ => none
  | .spurious t => if s.place t ≠ (s.place t).wake then some (s.setPlace t (s.place t).wake) else none
  | .spuriousHandler t => if s.handler t = some .asleep then some (s.setHandler t (some .relock)) else none

/-- The program runs, with any number of threads. -/
structure Began (s : State) : Prop where
  phase : s.phase ≠ .epochEnd
  isRollback : s.isRollback = false
  hasRollbacked : s.hasRollbacked = false
  waiters : s.waiters = 0
  mutex : s.mutex = none
  mutexSignalhandler : s.mutexSignalhandler = none
  alive : s.alive.Nodup
  place : ∀ t, s.place t = if t ∈ s.alive then .program else .absent
  handler : ∀ t, s.handler t = none
  pending : ∀ t, s.pending t = false
  status : ∀ t, s.status t = .running
  hasJoined : ∀ t, s.hasJoined t = false

end State

def system : Transition.System State Act where
  init := State.Began
  step s a s' := s.exec a = some s'

end Commit

end DoubleTake
