import DoubleTake.Threads

/-! The synchronization events of an epoch (`synceventlist.hh`, `recordentries.hh`), the calls that record them
    (`xthread.hh`), and the replay that grants them to the threads in the recorded order (`xsync.hh`). -/

namespace DoubleTake

/-- What has a `SyncEventList`: each mutex of the program, and `_spawningList`. -/
inductive SyncVar where
  | mutex (mutex : Nat)
  | spawning
  deriving DecidableEq, Repr

/-- `struct syncEvent`. -/
structure SyncEvent where
  thread : Nat
  eventlist : SyncVar
  ret : Int
  deriving DecidableEq, Repr

/-- A pointer to an event: its place among the `syncevents` of its thread. -/
structure EventRef where
  thread : Nat
  index : Nat
  deriving DecidableEq, Repr

/-- The calls of the program; `child` is the thread that the recorded `thread_create` made (`getCloneOps`). -/
inductive SyncCall where
  | mutexLock (mutex : Nat)
  | mutexTrylock (mutex : Nat)
  | mutexUnlock (mutex : Nat)
  | condWait (mutex : Nat)
  | threadCreate (child : Nat)
  deriving DecidableEq, Repr

/-- Whether the caller holds the mutex after a call that returned 0 or not: the way out of `cond_wait` is with the mutex. -/
def SyncCall.holdsAfter (m : Nat) (held : Bool) : SyncCall × Bool → Bool
  | (.mutexLock m', ok) | (.mutexTrylock m', ok) => held || (ok && m' == m)
  | (.mutexUnlock m', _) => held && m' != m
  | (.condWait m', _) => held || m' == m
  | (.threadCreate _, _) => held

/-- Whether a thread that has made these calls holds the mutex. -/
def holding (held : Bool) (calls : List (SyncCall × Bool)) (m : Nat) : Bool := calls.foldl (SyncCall.holdsAfter m) held

/-- The mutex that the call releases. -/
def SyncCall.releases : SyncCall → Option Nat
  | .mutexUnlock m | .condWait m => some m
  | .mutexLock _ | .mutexTrylock _ | .threadCreate _ => none

/-- What a real call has returned to its thread; `taken`: the thread has the mutex. -/
structure Returned where
  mutex : Nat
  ret : Int
  taken : Bool

/-- The threads and the real mutexes during an epoch, what has been recorded, and the calls that were made. -/
structure Epoch where
  alive : Nat → Bool
  status : Nat → ThreadStatus
  isNewlySpawned : Nat → Bool
  /-- The mutex of the `cond_wait` in which the thread sleeps, and its condition variable. -/
  condwait : Nat → Option Nat
  cond : Nat → Option Nat
  /-- The thread is between its real call and `recordSyncEvent`. -/
  returned : Nat → Option Returned
  owner : Nat → Option Nat
  /-- The owners when the epoch began. -/
  startOwner : Nat → Option Nat
  /-- The mutexes that the thread held when its context was saved. -/
  saved : Nat → Nat → Bool
  /-- The context of the thread is of an earlier epoch. -/
  stale : Nat → Bool
  /-- `_activeList`, the mutexes on it. -/
  active : List Nat
  syncevents : Nat → List SyncEvent
  list : SyncVar → List EventRef
  /-- The calls of the epoch; that in which a thread slept when it began comes first. -/
  calls : Nat → List SyncCall

namespace Epoch

def MAX_SYNCEVENT_ENTRIES : Nat := 0x1000000

/-- `mutex_init` where `do_mutex_lock` meets the mutex for the first time. -/
def mutexInit (E : Epoch) (m : Nat) : Epoch := { E with active := if m ∈ E.active then E.active else E.active ++ [m] }

def setOwner (E : Epoch) (m : Nat) (o : Option Nat) : Epoch := { E with owner := Function.update E.owner m o }

def setStatus (E : Epoch) (t : Nat) (status : ThreadStatus) (m c : Option Nat) : Epoch :=
  { E with
    status := Function.update E.status t status
    condwait := Function.update E.condwait t m
    cond := Function.update E.cond t c }

def setReturned (E : Epoch) (t : Nat) (r : Option Returned) : Epoch :=
  { E with returned := Function.update E.returned t r }

def addCall (E : Epoch) (t : Nat) (c : SyncCall) : Epoch := { E with calls := Function.update E.calls t (E.calls t ++ [c]) }

/-- `none`: the pool of the thread is full, and the program is aborted. -/
def recordSyncEvent (E : Epoch) (t : Nat) (l : SyncVar) (ret : Int) : Option Epoch :=
  if (E.syncevents t).length < MAX_SYNCEVENT_ENTRIES then
    some { E with
      syncevents := Function.update E.syncevents t (E.syncevents t ++ [⟨t, l, ret⟩])
      list := Function.update E.list l (E.list l ++ [⟨t, (E.syncevents t).length⟩]) }
  else none

inductive Act where
  | mutexLock (t mutex : Nat)
  | mutexTrylock (t mutex : Nat)
  | mutexUnlock (t mutex : Nat)
  | condWait (t mutex cond : Nat)
  | condWakeup (t : Nat) (ret : Int)
  | record (t : Nat)
  | threadCreate (t child : Nat)
  | finish (t : Nat)

/-- The thread is outside of these calls. -/
def running (E : Epoch) (t : Nat) : Bool := E.alive t && E.status t == .running && (E.returned t).isNone

/-- `pthread_mutex_trylock` on a mutex that is held. -/
def EBUSY : Int := 16

/-- One step of a thread; `none` when it cannot be made now. The real mutex is taken in one step, and the event is recorded
    in a later one: other threads go on in between. -/
def exec (E : Epoch) : Act → Option Epoch
  | .mutexLock t m =>
    if E.running t ∧ E.owner m = none then
      some ((((E.mutexInit m).setOwner m (some t)).addCall t (.mutexLock m)).setReturned t (some ⟨m, 0, true⟩))
    else none
  | .mutexTrylock t m =>
    if ¬ E.running t then none
    else if E.owner m = none then
      some ((((E.mutexInit m).setOwner m (some t)).addCall t (.mutexTrylock m)).setReturned t (some ⟨m, 0, true⟩))
    else some (((E.mutexInit m).addCall t (.mutexTrylock m)).setReturned t (some ⟨m, EBUSY, false⟩))
  | .mutexUnlock t m =>
    if E.running t ∧ E.owner m = some t then some ((E.setOwner m none).addCall t (.mutexUnlock m)) else none
  | .condWait t m c =>
    if E.running t ∧ E.owner m = some t then
      some (((E.setOwner m none).setStatus t .condWaiting (some m) (some c)).addCall t (.condWait m))
    else none
  | .condWakeup t ret =>
    match E.condwait t with
    | none => none
    | some m =>
      if E.owner m = none then
        some (((E.setOwner m (some t)).setStatus t .running none none).setReturned t (some ⟨m, ret, true⟩))
      else none
  | .record t =>
    match E.returned t with
    | none => none
    | some r => (E.setReturned t none).recordSyncEvent t (.mutex r.mutex) r.ret
  | .threadCreate t child =>
    if E.running t ∧ ¬ E.alive child then
      ({ E with
        alive := Function.update E.alive child true
        status := Function.update E.status child .running
        isNewlySpawned := Function.update E.isNewlySpawned child true
        -- Its context is saved in `startThread`.
        saved := Function.update E.saved child fun _ => false
        stale := Function.update E.stale child false }.addCall t (.threadCreate child)).recordSyncEvent t .spawning 0
    else none
  -- The end of `startThread`.
  | .finish t => if E.running t then some (E.setStatus t .waitForReaping none none) else none

/-- `xrun::epochBegin` after `epochEndWell`. The threads that run save their contexts; who sleeps in `cond_wait` or has
    finished keeps the context that he has. -/
def epochBegin (E : Epoch) : Epoch :=
  { E with
    isNewlySpawned := fun _ => false
    startOwner := E.owner
    saved := fun t m => if E.alive t ∧ E.status t ≠ .running then E.saved t m else E.owner m == some t
    stale := fun t => E.alive t && E.status t != .running
    syncevents := fun _ => []
    list := fun _ => []
    calls := fun t => (E.condwait t).toList.map .condWait }

/-- The begin of an epoch: nothing is recorded, and each thread is outside of these calls, asleep in `cond_wait` or at its
    end. -/
structure Began (E : Epoch) : Prop where
  startOwner : E.startOwner = E.owner
  condwait : ∀ t m, E.condwait t = some m → E.status t = .condWaiting ∧ E.alive t = true ∧ m ∈ E.active
  status : ∀ t, E.condwait t = none → E.status t = .running ∨ E.status t = .waitForReaping
  returned : ∀ t, E.returned t = none
  isNewlySpawned : ∀ t, E.isNewlySpawned t = false
  stale : ∀ t, E.stale t = (E.alive t && E.status t != .running)
  saved : ∀ t, E.stale t = false → ∀ m, E.saved t m = (E.owner m == some t)
  active : E.active.Nodup
  /-- A mutex that is held has been locked before, by a thread that is there. -/
  owner : ∀ m t, E.owner m = some t → m ∈ E.active ∧ E.alive t = true
  syncevents : ∀ t, E.syncevents t = []
  list : ∀ l, E.list l = []
  calls : ∀ t, E.calls t = (E.condwait t).toList.map .condWait

/-- A step of a thread, or the end of the epoch and the begin of the next one, by `committer`. -/
inductive Step where
  | act (act : Act)
  | epochBegin (committer : Nat)

/-- Nobody is between his real call and `recordSyncEvent`. The committer waits until every thread is safe (`isThreadSafe`), which
    only a thread on its way out of `cond_wait` is there. -/
def Settled (E : Epoch) : Prop := ∀ t, E.returned t = none

/-- An epoch change is one step: the others are stopped. A thread on its way out of `cond_wait` is not, and may record its event
    while the lists are cleaned up; such changes are left out. -/
def step (E : Epoch) : Step → Epoch → Prop
  | .act a, E' => E.exec a = some E'
  | .epochBegin t, E' => E.running t = true ∧ E.Settled ∧ E' = E.epochBegin

def system : Transition.System Epoch Step where
  init := Began
  step := step

/-- Where an epoch ends in a rollback: nobody is on his way out of a call, and no two threads sleep on one condition variable.
    There the `pthread_cond_signal` that is for one of them may wake up the other, which goes on where it slept. -/
structure Ended (E : Epoch) : Prop where
  settled : E.Settled
  cond : ∀ t u c, E.cond t = some c → E.cond u = some c → t = u

end Epoch

/-- The operations of a thread in the replay. -/
inductive ReplayOp where
  | peekSyncEvent (list : SyncVar)
  | waitSemaphore
  /-- `thread_create`: "Wakeup corresponding thread". -/
  | wakeupThread (child : Nat)
  | advanceThreadSyncList
  | advanceSyncEvent (list : SyncVar)
  | signalNextThread (event : EventRef)
  deriving DecidableEq, Repr

/-- The replay branches of `do_mutex_lock`, `mutex_unlock`, `cond_wait_core` and `thread_create`. -/
def SyncCall.replay : SyncCall → List ReplayOp
  | .mutexLock m | .mutexTrylock m => [.peekSyncEvent (.mutex m), .waitSemaphore, .advanceThreadSyncList]
  | .mutexUnlock m => [.advanceSyncEvent (.mutex m)]
  | .condWait m => [.advanceSyncEvent (.mutex m), .peekSyncEvent (.mutex m), .waitSemaphore, .advanceThreadSyncList]
  | .threadCreate child =>
    [.peekSyncEvent .spawning, .waitSemaphore, .wakeupThread child, .advanceThreadSyncList, .advanceSyncEvent .spawning]

/-- What a run of the replay shows: an event passes `waitSemaphore`, a thread releases a variable. -/
inductive Passage where
  | pass (event : EventRef)
  | release (t : Nat) (list : SyncVar)
  deriving DecidableEq, Repr

/-- The replay: `ops` is what is left of a thread's call, `ret` the local variable of this name. `issued` (the calls,
    and whether they return 0) and `log` keep the history. -/
structure Replay where
  ops : Nat → List ReplayOp
  ret : Nat → Int
  iter : Nat → Nat
  sema : Nat → Nat
  pendingSyncevents : Nat → List EventRef
  curentry : SyncVar → Option Nat
  status : Nat → ThreadStatus
  restarted : Nat → Bool
  /-- The thread whose end of the epoch has failed. -/
  committer : Nat
  issued : Nat → List (SyncCall × Bool)
  log : List Passage

/-- The wakeup of a thread that waits: in `wakeupOldWaitingThreads` and in `thread_create`. -/
def ThreadStatus.wakeup : ThreadStatus → ThreadStatus
  | .waitForReaping | .condWaiting | .joining => .rollback
  | status => status

namespace Replay

inductive Act where
  | restart (t : Nat)
  | issue (t : Nat) (call : SyncCall)
  | go (t : Nat)

def setOps (s : Replay) (t : Nat) (ops : List ReplayOp) : Replay := { s with ops := Function.update s.ops t ops }

def firstIterEntry (s : Replay) (t : Nat) : EventRef := ⟨t, s.iter t⟩

/-- `current->syncevents.getEntry()`. -/
def nextEvent (E : Epoch) (s : Replay) (t : Nat) : Option SyncEvent := (E.syncevents t)[s.iter t]?

def signalThread (s : Replay) (t : Nat) : Replay := { s with sema := Function.update s.sema t (s.sema t + 1) }

def addPendingSyncEvent (s : Replay) (e : EventRef) (t : Nat) : Replay :=
  { s with pendingSyncevents := Function.update s.pendingSyncevents t (s.pendingSyncevents t ++ [e]) }

def signalNextThread (s : Replay) (e : EventRef) : Replay :=
  if e = s.firstIterEntry e.thread then s.signalThread e.thread else s.addPendingSyncEvent e e.thread

def signalCurrentThread (s : Replay) (e : EventRef) : Replay :=
  if e ∈ s.pendingSyncevents e.thread then
    { s with pendingSyncevents := Function.update s.pendingSyncevents e.thread ((s.pendingSyncevents e.thread).erase e) }.signalThread
      e.thread
  else s

/-- `none`: the thread spins for ever, its next event is not on this list. -/
def peekSyncEvent (E : Epoch) (s : Replay) (t : Nat) (l : SyncVar) : Option Replay :=
  match s.nextEvent E t with
  | none => none
  | some event =>
    if event.thread = t ∧ event.eventlist = l then
      some { s.signalCurrentThread (s.firstIterEntry t) with ret := Function.update s.ret t event.ret }
    else none

def advanceThreadSyncList (s : Replay) (t : Nat) : Replay := { s with iter := Function.update s.iter t (s.iter t + 1) }

def setCurentry (s : Replay) (l : SyncVar) (k : Option Nat) : Replay :=
  { s with curentry := Function.update s.curentry l k }

def addIssued (s : Replay) (t : Nat) (c : SyncCall × Bool) : Replay :=
  { s with issued := Function.update s.issued t (s.issued t ++ [c]) }

/-- The next event of the list, which is the current entry from now on; `none`: there is no current entry. -/
def advanceSyncEvent (E : Epoch) (s : Replay) (l : SyncVar) : Option (Option EventRef × Replay) :=
  match s.curentry l with
  | none => none
  | some k =>
    if k + 1 < (E.list l).length then
      some ((E.list l)[k + 1]?, s.setCurentry l (some (k + 1)))
    else some (none, s.setCurentry l none)

def addLog (s : Replay) (p : Passage) : Replay := { s with log := s.log ++ [p] }

/-- The next operation of the thread; `none` when it cannot be made now. -/
def go (E : Epoch) (s : Replay) (t : Nat) : Option Replay :=
  match s.ops t with
  | [] => none
  | .peekSyncEvent l :: ops => (s.peekSyncEvent E t l).map (·.setOps t ops)
  | .waitSemaphore :: ops =>
    if s.ret t ≠ 0 then some (s.setOps t ops)
    else if 0 < s.sema t then
      some (({ s with sema := Function.update s.sema t (s.sema t - 1) }.addLog (.pass (s.firstIterEntry t))).setOps t ops)
    else none
  | .wakeupThread child :: ops =>
    if s.ret t ≠ 0 then some (s.setOps t ops)
    else some ({ s with status := Function.update s.status child (s.status child).wakeup }.setOps t ops)
  | .advanceThreadSyncList :: ops => some ((s.advanceThreadSyncList t).setOps t ops)
  | .advanceSyncEvent l :: ops =>
    (s.advanceSyncEvent E l).map fun (next, s) =>
      (s.addLog (.release t l)).setOps t (next.toList.map .signalNextThread ++ ops)
  | .signalNextThread e :: ops => some ((s.signalNextThread e).setOps t ops)

/-- A thread goes back to its saved context: the committer at once if it is an old thread (`checkRollbackCurrent`), a
    thread that waits after `wakeupOldWaitingThreads` or a `thread_create` has set its status. To come out of
    `pthread_cond_wait` it needs the real mutex. The other threads that run stay in `global_waitForNotification`. -/
def canRestart (E : Epoch) (s : Replay) (t : Nat) : Bool :=
  E.alive t && !s.restarted t &&
    (s.status t == .running && t == s.committer && !E.isNewlySpawned t ||
      s.status t == .rollback && (E.condwait t).all fun m => E.owner m == none)

/-- Only the holder of a mutex releases it. -/
def legal (E : Epoch) (s : Replay) (t : Nat) (c : SyncCall) : Bool :=
  c.releases.all fun m => holding (E.saved t m) (s.issued t) m

def exec (E : Epoch) (s : Replay) : Act → Option Replay
  | .restart t =>
    if s.canRestart E t then
      some { s with status := Function.update s.status t .running, restarted := Function.update s.restarted t true }
    else none
  | .issue t c =>
    if s.restarted t ∧ s.ops t = [] ∧ s.legal E t c then
      some ((s.addIssued t (c, (s.nextEvent E t).all fun event => event.ret == 0)).setOps t c.replay)
    else none
  | .go t => if s.restarted t then s.go E t else none

def prepareEventListRollback (E : Epoch) (s : Replay) (l : SyncVar) : Replay :=
  match (E.list l).head? with
  | none => s
  | some e => (s.setCurentry l (some 0)).signalNextThread e

def wakeupOldWaitingThreads (E : Epoch) (s : Replay) : Replay :=
  { s with status := fun t => if E.alive t ∧ ¬ E.isNewlySpawned t then (s.status t).wakeup else s.status t }

/-- After `prepareRollbackAlivethreads`. -/
def atStart (E : Epoch) (committer : Nat) : Replay where
  ops _ := []
  ret _ := 0
  iter _ := 0
  sema _ := 0
  pendingSyncevents _ := []
  curentry _ := none
  status := E.status
  restarted _ := false
  committer := committer
  issued _ := []
  log := []

def prepareRollback (E : Epoch) (committer : Nat) : Replay :=
  ((E.active.map SyncVar.mutex ++ [SyncVar.spawning]).foldl (prepareEventListRollback E)
    (atStart E committer)).wakeupOldWaitingThreads E

def system (E : Epoch) (committer : Nat) : Transition.System Replay Act where
  init s := E.Ended ∧ s = prepareRollback E committer
  step s a s' := s.exec E a = some s'

/-- Each thread that goes back to the begin of the epoch issues the calls it made in the epoch. -/
def sameCalls (E : Epoch) (s : Replay) : Act → Prop
  | .issue t c => E.stale t = true ∨ (s.issued t).map Prod.fst ++ [c] <+: E.calls t
  | _ => True

instance (E : Epoch) (s : Replay) : DecidablePred (sameCalls E s)
  | .issue t c => inferInstanceAs (Decidable (E.stale t = true ∨ (s.issued t).map Prod.fst ++ [c] <+: E.calls t))
  | .restart _ | .go _ => inferInstanceAs (Decidable True)

end Replay

end DoubleTake
