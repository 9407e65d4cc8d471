import DoubleTake.ThreadInfo
import DoubleTake.Threads

/-! How a thread is created, ends and is joined (`thread_create`, `threadRegister`, `startThread` and `thread_join` in `xthread.hh`).
    Each `thread_t` has a mutex and a condition variable of its own. One step of a thread is one operation on one of these, or what
    it does between two of them. Runs go up to the first rollback: an epoch ends with a commit, in one step that finds every thread
    in the program, asleep in `thread_join` or asleep at the end of `startThread`. The branches for the replay are left out. -/

namespace DoubleTake

namespace Lifecycle

/-- Where a thread is. -/
inductive Pc where
  /-- The slot has no thread. -/
  | absent
  | program
  /-- `thread_create`: `global_lock`, the new thread, `global_unlock`, and the loop until it has registered. -/
  | createLock (detached : Bool)
  | createInit (detached : Bool)
  | createUnlock (child : Nat)
  | createWait (child : Nat)
  | createLoop (child : Nat)
  | createSleep (child : Nat)
  | createRelock (child : Nat)
  | createDone (child : Nat)
  /-- `threadRegister`. -/
  | registerLock
  | register
  | registerSignal
  | registerUnlock
  /-- The end of `startThread`. -/
  | finishLock (result : Nat)
  | finishStore (result : Nat)
  | finishCheck
  | finishSignal
  | finishLoop
  | finishSleep
  | finishRelock
  /-- The assertion on the status of the joiner has failed. -/
  | failed
  /-- `thread_join`: `markThreadJoining`. -/
  | markLock (joinee : Nat)
  | mark (joinee : Nat)
  | markUnlock (joinee : Nat)
  /-- The loop until the joinee has finished, and its result. -/
  | joinLock (joinee : Nat)
  | joinLoop (joinee : Nat)
  | joinSleep (joinee : Nat)
  | joinRelock (joinee : Nat)
  | joinTake (joinee : Nat)
  | joinUnlock (joinee result : Nat)
  /-- `unmarkThreadJoining`. -/
  | unmarkLock (joinee result : Nat)
  | unmark (joinee result : Nat)
  | unmarkUnlock (joinee result : Nat)
  | joinDone (joinee result : Nat)
  deriving DecidableEq, Repr

/-- The fields of a `thread_t` that these functions use. -/
structure ThreadT where
  status : ThreadStatus
  joiner : Option Nat
  hasJoined : Bool
  isDetached : Bool
  result : Nat
  deriving DecidableEq, Repr

structure State where
  thread : Nat → ThreadT
  /-- `mutex` of each `thread_t`, and `g_mutex`. -/
  mutex : Nat → Option Nat
  globalMutex : Option Nat
  pc : Nat → Pc

/-- A thread calls `thread_create` or `thread_join` or returns from its start routine, the new thread is there, a thread goes on or
    wakes up without a notification, `thread_join` returns, or a thread ends the epoch. -/
inductive Act where
  | create (t : Nat) (detached : Bool)
  | spawn (t child : Nat)
  | exit (t result : Nat)
  | join (t joinee : Nat)
  | go (t : Nat)
  | wake (t : Nat)
  | ret (t joinee result : Nat)
  | commit (t : Nat)
  deriving DecidableEq, Repr

/-- What a wakeup on the condition variable of `u` does to the thread `t`. -/
def Pc.wake (u t : Nat) : Pc → Pc
  | .createSleep child => if child = u then .createRelock child else .createSleep child
  | .joinSleep joinee => if joinee = u then .joinRelock joinee else .joinSleep joinee
  | .finishSleep => if t = u then .finishRelock else .finishSleep
  | pc => pc

/-- Whose condition variable the thread `t` sleeps on. -/
def Pc.sleepsOn (t : Nat) : Pc → Option Nat
  | .createSleep child => some child
  | .joinSleep joinee => some joinee
  | .finishSleep => some t
  | _ => none

/-- Whom the thread is in `thread_join` for. -/
def Pc.joinee : Pc → Option Nat
  | .markLock u | .mark u | .markUnlock u | .joinLock u | .joinLoop u | .joinSleep u | .joinRelock u | .joinTake u => some u
  | .joinUnlock u _ | .unmarkLock u _ | .unmark u _ | .unmarkUnlock u _ | .joinDone u _ => some u
  | _ => none

/-- Where a thread is stopped for the end of an epoch. -/
def Pc.quiet : Pc → Bool
  | .absent | .program | .joinSleep _ | .finishSleep => true
  | _ => false

namespace State

def setPc (s : State) (t : Nat) (pc : Pc) : State := { s with pc := Function.update s.pc t pc }

def setThread (s : State) (t : Nat) (info : ThreadT) : State := { s with thread := Function.update s.thread t info }

def setMutex (s : State) (u : Nat) (o : Option Nat) : State := { s with mutex := Function.update s.mutex u o }

/-- `lock_thread(u)`. -/
def lockThread (s : State) (t u : Nat) (next : Pc) : Option State :=
  if s.mutex u = none then some ((s.setMutex u (some t)).setPc t next) else none

/-- `unlock_thread(u)`, or the first half of `wait_thread(u)`. -/
def unlockThread (s : State) (t u : Nat) (next : Pc) : State := (s.setMutex u none).setPc t next

/-- `signal_thread(u)`, a broadcast. -/
def signalThread (s : State) (u : Nat) : State := { s with pc := fun t => (s.pc t).wake u t }

def go (s : State) (t : Nat) : Option State :=
  match s.pc t with
  | .createLock detached =>
    if s.globalMutex = none then some ({ s with globalMutex := some t }.setPc t (.createInit detached)) else none
  | .createUnlock child => some ({ s with globalMutex := none }.setPc t (.createWait child))
  | .createWait child => s.lockThread t child (.createLoop child)
  | .createLoop child =>
    if (s.thread child).status = .starting then some (s.unlockThread t child (.createSleep child))
    else some (s.setPc t (.createDone child))
  | .createRelock child => s.lockThread t child (.createLoop child)
  | .createDone child => some (s.unlockThread t child .program)
  | .registerLock => s.lockThread t t .register
  | .register => some ((s.setThread t { s.thread t with status := .running, joiner := none }).setPc t .registerSignal)
  | .registerSignal => some ((s.signalThread t).setPc t .registerUnlock)
  | .registerUnlock => some (s.unlockThread t t .program)
  | .finishLock result => s.lockThread t t (.finishStore result)
  | .finishStore result =>
    some ((s.setThread t { s.thread t with result := result, status := .waitForReaping }).setPc t .finishCheck)
  | .finishCheck =>
    if (s.thread t).isDetached then some (s.setPc t .finishLoop)
    else
      match (s.thread t).joiner with
      | none => some (s.setPc t .finishLoop)
      | some joiner => some (s.setPc t (if (s.thread joiner).status = .joining then .finishSignal else .failed))
  | .finishSignal => some ((s.signalThread t).setPc t .finishLoop)
  | .finishLoop =>
    if (s.thread t).status = .exiting ∨ (s.thread t).status = .rollback then some (s.unlockThread t t .absent)
    else some (s.unlockThread t t .finishSleep)
  | .finishRelock => s.lockThread t t .finishLoop
  | .markLock joinee => s.lockThread t t (.mark joinee)
  | .mark joinee => some ((s.setThread t { s.thread t with status := .joining }).setPc t (.markUnlock joinee))
  | .markUnlock joinee => some (s.unlockThread t t (.joinLock joinee))
  | .joinLock joinee => s.lockThread t joinee (.joinLoop joinee)
  | .joinLoop joinee =>
    if (s.thread joinee).status = .waitForReaping then some (s.setPc t (.joinTake joinee))
    else some ((s.setThread joinee { s.thread joinee with joiner := some t }).unlockThread t joinee (.joinSleep joinee))
  | .joinRelock joinee => s.lockThread t joinee (.joinLoop joinee)
  | .joinTake joinee =>
    some ((s.setThread joinee { s.thread joinee with hasJoined := true }).setPc t (.joinUnlock joinee (s.thread joinee).result))
  | .joinUnlock joinee result => some (s.unlockThread t joinee (.unmarkLock joinee result))
  | .unmarkLock joinee result => s.lockThread t t (.unmark joinee result)
  | .unmark joinee result => some ((s.setThread t { s.thread t with status := .running }).setPc t (.unmarkUnlock joinee result))
  | .unmarkUnlock joinee result => some (s.unlockThread t t (.joinDone joinee result))
  | .absent | .program | .createInit _ | .createSleep _ | .finishSleep | .failed | .joinSleep _ | .joinDone _ _ => none

/-- The slots of the table. -/
def slots : List Nat := List.range ThreadInfo.MAX_ALIVE_THREADS

/-- A thread may join another one that is not detached and that nobody has joined or is joining. -/
def joinable (s : State) (t u : Nat) : Bool :=
  decide (u ∈ slots ∧ u ≠ t ∧ s.pc u ≠ .absent) && !(s.thread u).isDetached && !(s.thread u).hasJoined &&
    slots.all fun a => decide ((s.pc a).joinee ≠ some u)

/-- `xrun::epochBegin` and `runDeferredSyncs`, which end this thread and wait for it. -/
def reaps (s : State) (t u : Nat) : Bool := decide (u ≠ t ∧ s.pc u = .finishSleep) && (s.thread u).hasJoined

def epochBegin (s : State) (t : Nat) : State :=
  { s with
    thread := fun u => if s.reaps t u then { s.thread u with status := .exiting } else s.thread u
    pc := fun u => if s.reaps t u then .absent else s.pc u }

/-- The initial thread does not come to the end of `startThread`. -/
def exec (s : State) : Act → Option State
  | .create t detached => if s.pc t = .program then some (s.setPc t (.createLock detached)) else none
  | .spawn t child =>
    match s.pc t with
    | .createInit detached =>
      if child ∈ slots ∧ s.pc child = .absent then
        some (((s.setThread child ⟨.starting, none, false, detached, (s.thread child).result⟩).setPc child .registerLock).setPc t
          (.createUnlock child))
      else none
    | _ => none
  | .exit t result => if s.pc t = .program ∧ t ≠ 0 then some (s.setPc t (.finishLock result)) else none
  | .join t joinee => if s.pc t = .program ∧ s.joinable t joinee then some (s.setPc t (.markLock joinee)) else none
  | .go t => s.go t
  | .wake t => ((s.pc t).sleepsOn t).map fun u => s.setPc t ((s.pc t).wake u t)
  | .ret t joinee result => if s.pc t = .joinDone joinee result then some (s.setPc t .program) else none
  | .commit t => if s.pc t = .program ∧ (slots.all fun u => (s.pc u).quiet) = true then some (s.epochBegin t) else none

/-- The initial thread runs alone. -/
structure Began (s : State) : Prop where
  pc : s.pc 0 = .program
  absent : ∀ t, t ≠ 0 → s.pc t = .absent
  status : (s.thread 0).status = .running
  joiner : (s.thread 0).joiner = none
  hasJoined : (s.thread 0).hasJoined = false
  mutex : ∀ u, s.mutex u = none
  globalMutex : s.globalMutex = none

end State

def system : Transition.System State Act where
  init := State.Began
  step s act s' := s.exec act = some s'

end Lifecycle

end DoubleTake
