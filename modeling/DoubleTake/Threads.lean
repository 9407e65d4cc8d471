import Mathlib.Logic.Function.Basic
import DoubleTake.Lib.Transition

/-! Threads in their synchronization calls (`xthread.hh`) while one thread stops all others to commit
    (`xrun::stopAllThreads`). One step of a thread is one operation on a mutex, on a condition variable or on the
    `isSafe` flag. -/

namespace DoubleTake

inductive ThreadStatus where
  | starting
  | running
  | joining
  | exiting
  | condWaiting
  | rollback
  | waitForJoining
  | waitForReaping
  deriving DecidableEq, Repr

/-- The real mutexes: those behind the mutexes of the application, and the one inside each barrier. -/
inductive RealMutex where
  | app (mutex : Nat)
  | barrier (barrier : Nat)
  deriving DecidableEq, Repr

/-- Where a thread waits on a condition variable. -/
inductive CondWait where
  /-- In `cond_wait_core`, with the mutex of the application. -/
  | cond (mutex : Nat)
  /-- In `barrier_wait`, for the last thread to arrive. -/
  | barrier (barrier : Nat)
  deriving DecidableEq, Repr

def CondWait.mutex : CondWait → RealMutex
  | .cond m => .app m
  | .barrier b => .barrier b

/-- What a thread does next. -/
inductive Pc where
  /-- It runs the program. -/
  | program
  /-- `do_mutex_lock`, after `setThreadUnsafe`: `pthread_mutex_lock`. -/
  | mutexLock (mutex : Nat)
  /-- `do_mutex_lock`, after `setThreadUnsafe`: `pthread_mutex_trylock`. -/
  | mutexTrylock (mutex : Nat)
  /-- `mutex_unlock` and `barrier_wait`, after `pthread_mutex_unlock`: `setThreadSafe`. -/
  | setThreadSafe
  /-- `markThreadCondwait`: `lock_thread`, then the new status and `unlock_thread`, then `setThreadSafe`. -/
  | markLock (w : CondWait)
  | markUnlock (w : CondWait)
  | markSafe (w : CondWait)
  /-- `pthread_cond_wait`: releasing the mutex, asleep, taking the mutex again. -/
  | condWait (w : CondWait)
  | condSleep (w : CondWait)
  | condRelock (w : CondWait)
  /-- `unmarkThreadCondwait`: `lock_thread`, then the new status and `unlock_thread`, then `setThreadUnsafe`. -/
  | unmarkLock (w : CondWait)
  | unmarkUnlock (w : CondWait)
  | unmarkUnsafe (w : CondWait)
  /-- `barrier_wait`, after `setThreadUnsafe`: `pthread_mutex_lock`. -/
  | barrierLock (barrier : Nat)
  /-- The test of the arrival phase, and the `pthread_cond_wait` of its loop. -/
  | barrierArrive (barrier : Nat)
  | arriveSleep (barrier : Nat)
  | arriveRelock (barrier : Nat)
  /-- The test of the loop that waits for the last thread. -/
  | barrierLoop (barrier : Nat)
  | barrierLeave (barrier : Nat)
  | barrierUnlock (barrier : Nat)
  /-- The loop of `stopAllThreads` over the threads that are left: `lock_thread`. -/
  | stopNext (threads : List Nat)
  /-- The thread mutex of `thread` is held: `while (!isThreadSafe(thread))`. -/
  | stopSpin (thread : Nat) (threads : List Nat)
  /-- `global_waitThreadsStops`. -/
  | stopWait
  deriving DecidableEq, Repr

structure BarrierInfo where
  maxThreads : Nat
  isArrivalPhase : Bool
  waitingThreads : Nat

/-- All threads, who holds which mutex, and who has been sent `SIGUSR2` and has stopped. -/
structure Threads where
  pc : Nat → Pc
  isSafe : Nat → Bool
  status : Nat → ThreadStatus
  owner : RealMutex → Option Nat
  threadMutex : Nat → Option Nat
  barrier : Nat → BarrierInfo
  killed : Nat → Bool
  stopped : Nat → Bool

/-- What happens next: a thread calls a function, goes on in one, is woken up, or is stopped by the signal. -/
inductive Act where
  | mutexLock (t mutex : Nat)
  | mutexTrylock (t mutex : Nat)
  | mutexUnlock (t mutex : Nat)
  | condWait (t mutex : Nat)
  | barrierWait (t barrier : Nat)
  | stopAllThreads (t : Nat)
  | go (t : Nat)
  | wake (t : Nat)
  | signal (t : Nat)
  deriving DecidableEq, Repr

namespace Threads

def setPc (s : Threads) (t : Nat) (pc : Pc) : Threads := { s with pc := Function.update s.pc t pc }

def setSafe (s : Threads) (t : Nat) (safe : Bool) : Threads := { s with isSafe := Function.update s.isSafe t safe }

def setStatus (s : Threads) (t : Nat) (status : ThreadStatus) : Threads :=
  { s with status := Function.update s.status t status }

def setOwner (s : Threads) (m : RealMutex) (o : Option Nat) : Threads := { s with owner := Function.update s.owner m o }

def setThreadMutex (s : Threads) (t : Nat) (o : Option Nat) : Threads :=
  { s with threadMutex := Function.update s.threadMutex t o }

def setBarrier (s : Threads) (b : Nat) (info : BarrierInfo) : Threads :=
  { s with barrier := Function.update s.barrier b info }

/-- A lock of a real mutex: the thread goes on only when it is free. -/
def lockReal (s : Threads) (t : Nat) (m : RealMutex) (next : Pc) : Option Threads :=
  if s.owner m = none then some ((s.setOwner m (some t)).setPc t next) else none

/-- `lock_thread` on the thread `u` by `t`. -/
def lockThread (s : Threads) (t u : Nat) (next : Pc) : Option Threads :=
  if s.threadMutex u = none then some ((s.setThreadMutex u (some t)).setPc t next) else none

/-- After the arrival at a barrier: the last thread ends the arrival phase, the others wait. -/
def arrive (s : Threads) (t b : Nat) : Threads :=
  let info := { s.barrier b with waitingThreads := (s.barrier b).waitingThreads + 1 }
  if info.waitingThreads ≥ info.maxThreads then
    (s.setBarrier b { info with isArrivalPhase := false }).setPc t (.barrierLeave b)
  else (s.setBarrier b info).setPc t (.barrierLoop b)

/-- The last thread to leave a barrier begins the next arrival phase. -/
def leave (s : Threads) (t b : Nat) : Threads :=
  let info := { s.barrier b with waitingThreads := (s.barrier b).waitingThreads - 1 }
  let info := if info.waitingThreads = 0 then { info with isArrivalPhase := true } else info
  (s.setBarrier b info).setPc t (.barrierUnlock b)

/-- A thread that is safe gets the signal, unless it waits on an internal lock already. -/
def kill (s : Threads) (u : Nat) : Threads :=
  if s.status u ≠ .waitForReaping ∧ s.status u ≠ .joining ∧ s.status u ≠ .condWaiting then
    { s with killed := Function.update s.killed u true }
  else s

/-- The next operation of the thread; `none` when it cannot be made now. -/
def go (s : Threads) (t : Nat) : Option Threads :=
  match s.pc t with
  | .program => none
  | .mutexLock m => s.lockReal t (.app m) .program
  | .mutexTrylock m =>
    if s.owner (.app m) = none then some ((s.setOwner (.app m) (some t)).setPc t .program) else some (s.setPc t .program)
  | .setThreadSafe => some ((s.setSafe t true).setPc t .program)
  | .markLock w => if s.status t = .running then s.lockThread t t (.markUnlock w) else none
  | .markUnlock w => some (((s.setStatus t .condWaiting).setThreadMutex t none).setPc t (.markSafe w))
  | .markSafe w => some ((s.setSafe t true).setPc t (.condWait w))
  | .condWait w => some ((s.setOwner w.mutex none).setPc t (.condSleep w))
  | .condSleep _ => none
  | .condRelock w => s.lockReal t w.mutex (.unmarkLock w)
  | .unmarkLock w => s.lockThread t t (.unmarkUnlock w)
  | .unmarkUnlock w => some (((s.setStatus t .running).setThreadMutex t none).setPc t (.unmarkUnsafe w))
  | .unmarkUnsafe w =>
    some ((s.setSafe t false).setPc t (match w with | .cond _ => .program | .barrier b => .barrierLoop b))
  | .barrierLock b => s.lockReal t (.barrier b) (.barrierArrive b)
  | .barrierArrive b =>
    if (s.barrier b).isArrivalPhase then some (s.arrive t b)
    else some ((s.setOwner (.barrier b) none).setPc t (.arriveSleep b))
  | .arriveSleep _ => none
  | .arriveRelock b => s.lockReal t (.barrier b) (.barrierArrive b)
  | .barrierLoop b =>
    if (s.barrier b).isArrivalPhase then some (s.setPc t (.markLock (.barrier b))) else some (s.setPc t (.barrierLeave b))
  | .barrierLeave b => some (s.leave t b)
  | .barrierUnlock b => some ((s.setOwner (.barrier b) none).setPc t .setThreadSafe)
  | .stopNext [] => some (s.setPc t .stopWait)
  | .stopNext (u :: us) => if u = t then some (s.setPc t (.stopNext us)) else s.lockThread t u (.stopSpin u us)
  | .stopSpin u us =>
    if s.isSafe u then some (((s.kill u).setThreadMutex u none).setPc t (.stopNext us)) else some s
  | .stopWait => none

/-- The threads `alive` run, and `committer` is the one that may stop the others. -/
def exec (alive : List Nat) (committer : Nat) (s : Threads) : Act → Option Threads
  | .mutexLock t m =>
    if s.pc t = .program ∧ ¬ s.stopped t then some ((s.setSafe t false).setPc t (.mutexLock m)) else none
  | .mutexTrylock t m =>
    if s.pc t = .program ∧ ¬ s.stopped t then some ((s.setSafe t false).setPc t (.mutexTrylock m)) else none
  | .mutexUnlock t m =>
    if s.pc t = .program ∧ ¬ s.stopped t ∧ s.owner (.app m) = some t then
      some ((s.setOwner (.app m) none).setPc t .setThreadSafe)
    else none
  | .condWait t m =>
    if s.pc t = .program ∧ ¬ s.stopped t ∧ s.owner (.app m) = some t then some (s.setPc t (.markLock (.cond m))) else none
  | .barrierWait t b =>
    if s.pc t = .program ∧ ¬ s.stopped t then some ((s.setSafe t false).setPc t (.barrierLock b)) else none
  | .stopAllThreads t =>
    if t = committer ∧ s.pc t = .program ∧ ¬ s.stopped t then some (s.setPc t (.stopNext alive)) else none
  | .go t => if s.stopped t then none else s.go t
  -- A signal, a broadcast or a spurious wakeup.
  | .wake t =>
    if s.stopped t then none
    else
      match s.pc t with
      | .condSleep w => some (s.setPc t (.condRelock w))
      | .arriveSleep b => some (s.setPc t (.arriveRelock b))
      | _ => none
  | .signal t => if s.killed t then some { s with stopped := Function.update s.stopped t true } else none

/-- Every thread runs the program, and no mutex is held. -/
structure Initial (s : Threads) : Prop where
  pc : ∀ t, s.pc t = .program
  owner : ∀ m, s.owner m = none
  threadMutex : ∀ t, s.threadMutex t = none

def system (alive : List Nat) (committer : Nat) : Transition.System Threads Act where
  init := Initial
  step s a t := s.exec alive committer a = some t

end Threads

end DoubleTake
