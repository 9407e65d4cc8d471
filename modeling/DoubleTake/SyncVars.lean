import DoubleTake.HashMap
import DoubleTake.ThreadInfo

/-! The entries of the synchronization variables (`xsync.hh`), each threaded on three lists (`list.hh`), and the variables of the
    program that point to them (`xthread.hh`). -/

namespace DoubleTake

open CircularList
open ThreadInfo (SyncVariableType)

/-- The lists of `xsync`. -/
inductive SyncList where
  | activeList
  | newList
  | delList
  deriving DecidableEq, Repr

/-- A `list_t`: the head of a list, or one in memory. -/
inductive SyncNode where
  | head (list : SyncList)
  | mem (addr : Nat)
  deriving DecidableEq, Repr

namespace SyncList

/-- Where `listactive`, `listnew` and `listdel` are in a `SyncEntry`. -/
def offset : SyncList → Nat
  | .activeList => 0
  | .newList => 16
  | .delList => 16 + 16

/-- `&entry->listactive`, `&entry->listnew` and `&entry->listdel`. -/
def node (l : SyncList) (e : Nat) : SyncNode := .mem (e + l.offset)

end SyncList

structure SyncEntry where
  type : SyncVariableType
  nominal : Nat
  real : Nat
  syncevents : Nat
  deriving DecidableEq, Repr

/-- What is in a block of the internal heap. -/
inductive InternalBlock where
  | syncEntry (entry : SyncEntry)
  /-- A real variable and its `SyncEventList`. -/
  | realVar (size : Nat)
  deriving DecidableEq, Repr

def SYNC_ENTRY_SIZE : Nat := 80
def SYNC_EVENT_LIST_SIZE : Nat := 80

def InternalBlock.size : InternalBlock → Nat
  | .syncEntry _ => SYNC_ENTRY_SIZE
  | .realVar size => size

structure XSync where
  links : Links SyncNode
  blocks : Nat → Option InternalBlock
  /-- The events of the `SyncEventList` at an address. -/
  events : Nat → List Nat

namespace XSync

def INTERNAL_HEAP_BASE : Nat := 0x100000000000
def INTERNAL_HEAP_END : Nat := INTERNAL_HEAP_BASE + HashMap.INTERNAL_HEAP_SIZE

/-- After `initialize`. -/
def initialized : XSync where
  links := ⟨id, id⟩
  blocks _ := none
  events _ := []

/-- The internal heap gives what is not in use. -/
def allocates (s : XSync) (a size : Nat) : Prop :=
  INTERNAL_HEAP_BASE ≤ a ∧ a + size ≤ INTERNAL_HEAP_END ∧
    ∀ b block, s.blocks b = some block → a + size ≤ b ∨ b + block.size ≤ a

/-- The `SyncEntry` at the address, when there is one. -/
def entry (s : XSync) (a : Nat) : Option SyncEntry :=
  match s.blocks a with
  | some (.syncEntry entry) => some entry
  | some (.realVar _) | none => none

/-- `getSyncEntry`, `getSyncEntryDellist` and the cast of a node of `_activeList`, and what is read there. -/
def entryOf (s : XSync) (l : SyncList) : SyncNode → Option (Nat × SyncEntry)
  | .head _ => none
  | .mem a => (s.entry (a - l.offset)).map fun entry => (a - l.offset, entry)

def isListEmpty (s : XSync) (l : SyncList) : Bool := s.links.next (.head l) == .head l

def insertTail (s : XSync) (l : SyncList) (e : Nat) : XSync := { s with links := s.links.insertTail (l.node e) (.head l) }

def removeNode (s : XSync) (l : SyncList) (e : Nat) : XSync := { s with links := s.links.removeNode (l.node e) }

def listInit (s : XSync) (l : SyncList) : XSync := { s with links := s.links.nodeInit (.head l) }

/-- `InternalHeap::malloc` has given `e`. -/
def recordSyncVar (s : XSync) (e : Nat) (type : SyncVariableType) (nominal real list : Nat) : XSync :=
  let s := { s with blocks := Function.update s.blocks e (some (.syncEntry ⟨type, nominal, real, list⟩)) }
  (s.insertTail .activeList e).insertTail .newList e

def freeSyncEntry (s : XSync) (e : Nat) : XSync := { s with blocks := Function.update s.blocks e none }

/-- `none`: `&entry->listdel` is not in an entry. -/
def deferSync (s : XSync) (e : Nat) : Option XSync :=
  match s.entry e with
  | none => none
  | some _ => some (s.insertTail .delList e)

/-- The loop of `retrieveSyncEntry`, up to its target; `none`: it reads what is not an entry. -/
def retrieveLoop (s : XSync) (type : SyncVariableType) (nominal : Nat) (last : SyncNode) : Nat → SyncNode → Option (Option Nat)
  | 0, _ => none
  | fuel + 1, next =>
    match s.entryOf .newList next with
    | none => none
    | some (e, entry) =>
      if entry.type = type ∧ entry.nominal = nominal then some (some e)
      else if next = last then some none
      else s.retrieveLoop type nominal last fuel (s.links.next next)

/-- `none`: an assertion fails. -/
def retrieveSyncEntry (s : XSync) (type : SyncVariableType) (nominal : Nat) : Option (Nat × XSync) :=
  if s.isListEmpty .newList then none
  else
    match s.retrieveLoop type nominal (s.links.prev (.head .newList)) HashMap.INTERNAL_HEAP_SIZE (s.links.next (.head .newList)) with
    | none | some none => none
    | some (some target) => some (target, (s.removeNode .newList target).insertTail .newList target)

/-- The calls of `retrieveSyncEntry` for these variables, one after another: the entries they return. -/
def retrieveAll (s : XSync) : List (SyncVariableType × Nat) → Option (List Nat × XSync)
  | [] => some ([], s)
  | (type, nominal) :: keys =>
    match s.retrieveSyncEntry type nominal with
    | none => none
    | some (e, s) => (s.retrieveAll keys).map fun (es, s) => (e :: es, s)

/-- The loop of `epochBegin` over `_delList`: the entries that it frees. -/
def delLoop (last : SyncNode) : Nat → SyncNode → XSync → Option (List Nat × XSync)
  | 0, _, _ => none
  | fuel + 1, now, s =>
    let next := s.links.next now
    match s.entryOf .delList now with
    | none => none
    | some (e, _) =>
      let s := ((s.removeNode .delList e).removeNode .activeList e).freeSyncEntry e
      if now = last then some ([e], s)
      else (delLoop last fuel next s).map fun (es, s) => (e :: es, s)

/-- The loop of `epochBegin` over `_activeList`. -/
def activeLoop (last : SyncNode) : Nat → SyncNode → XSync → Option XSync
  | 0, _, _ => none
  | fuel + 1, now, s =>
    let next := s.links.next now
    match s.entryOf .activeList now with
    | none => none
    | some (_, entry) =>
      let s := { s with events := Function.update s.events entry.syncevents [] }
      if now = last then some s else activeLoop last fuel next s

def cleanupDelList (s : XSync) : Option (List Nat × XSync) :=
  if s.isListEmpty .delList then some ([], s)
  else delLoop (s.links.prev (.head .delList)) HashMap.INTERNAL_HEAP_SIZE (s.links.next (.head .delList)) s

def cleanupEvents (s : XSync) : Option XSync :=
  if s.isListEmpty .activeList then some s
  else activeLoop (s.links.prev (.head .activeList)) HashMap.INTERNAL_HEAP_SIZE (s.links.next (.head .activeList)) s

/-- With the entries that are freed. -/
def epochBegin (s : XSync) : Option (List Nat × XSync) :=
  match s.cleanupDelList with
  | none => none
  | some (freed, s) => ((s.listInit .newList).cleanupEvents).map fun s => (freed, s)

end XSync

/-- The size of the real variable. -/
def ThreadInfo.SyncVariableType.realSize : SyncVariableType → Nat
  | .mutex => 40
  | .cond => 48
  | .barrier => 48 + 40 + 12
  | .thread => 0

/-- The variables of the program: what is in their first two words. -/
structure SyncVars where
  xsync : XSync
  real : Nat → Nat
  syncentry : Nat → Nat

namespace SyncVars

def isInvalidSyncVar (real : Nat) : Bool := decide (real < XSync.INTERNAL_HEAP_BASE) || decide (XSync.INTERNAL_HEAP_END ≤ real)

/-- `InternalHeap::malloc` has given `real`. -/
def allocRealSyncVar (s : SyncVars) (real size : Nat) : SyncVars :=
  { s with
    xsync := { s.xsync with
      blocks := Function.update s.xsync.blocks real (some (.realVar (size + SYNC_EVENT_LIST_SIZE)))
      events := Function.update s.xsync.events (real + size) [] } }

def deallocRealSyncVar (s : SyncVars) (real : Nat) : SyncVars :=
  { s with xsync := { s.xsync with blocks := Function.update s.xsync.blocks real none } }

/-- `__atomic_compare_exchange_n` has `swapped`; `e` is for the new entry. -/
def setSyncEntry (s : SyncVars) (type : SyncVariableType) (syncvar realvar size e : Nat) (swapped : Bool) : Int × SyncVars :=
  if swapped then
    let s := { s with real := Function.update s.real syncvar realvar }
    (0, { s with
      xsync := s.xsync.recordSyncVar e type syncvar realvar (s.real syncvar + size)
      syncentry := Function.update s.syncentry syncvar e })
  else (-1, s.deallocRealSyncVar realvar)

/-- What the three `_init` functions have in common, outside of a rollback. -/
def varInit (s : SyncVars) (type : SyncVariableType) (syncvar real e : Nat) (swapped : Bool) : Int × SyncVars :=
  (s.allocRealSyncVar real type.realSize).setSyncEntry type syncvar real type.realSize e swapped

def mutexInit (s : SyncVars) (mutex real e : Nat) (swapped : Bool) : SyncVars := (s.varInit .mutex mutex real e swapped).2

def condInit (s : SyncVars) (cond real e : Nat) (swapped : Bool) : SyncVars := (s.varInit .cond cond real e swapped).2

/-- `none`: `assert(0)`, the entry cannot be set. -/
def barrierInit (s : SyncVars) (barrier real e : Nat) (swapped : Bool) : Option SyncVars :=
  if (s.varInit .barrier barrier real e swapped).1 ≠ 0 then none else some (s.varInit .barrier barrier real e swapped).2

def init (s : SyncVars) (type : SyncVariableType) (v real e : Nat) (swapped : Bool) : Option SyncVars :=
  match type with
  | .mutex => some (s.mutexInit v real e swapped)
  | .cond => some (s.condInit v real e swapped)
  | .barrier => s.barrierInit v real e swapped
  | .thread => none

/-- How `do_mutex_lock`, `cond_wait_core`, `cond_broadcast` and `cond_signal` begin. -/
def use (s : SyncVars) (type : SyncVariableType) (v real e : Nat) (swapped : Bool) : Option SyncVars :=
  if isInvalidSyncVar (s.real v) then s.init type v real e swapped else some s

/-- `getSyncEventList` and `recordSyncEvent`. -/
def recordSyncEvent (s : SyncVars) (type : SyncVariableType) (v event : Nat) : SyncVars :=
  let list := s.real v + type.realSize
  { s with xsync := { s.xsync with events := Function.update s.xsync.events list (s.xsync.events list ++ [event]) } }

def deferSync (s : SyncVars) (v : Nat) : Option SyncVars :=
  (s.xsync.deferSync (s.syncentry v)).map fun xsync => { s with xsync }

/-- What has become of a variable. -/
inductive Phase where
  | unset
  /-- `PTHREAD_MUTEX_INITIALIZER` or `PTHREAD_COND_INITIALIZER`, and not used yet. -/
  | static
  | ready (e : Nat)
  | destroyed
  deriving DecidableEq, Repr

/-- The variables with their history: the entries that are recorded and not freed, those that are new in this epoch and
    those that were destroyed in it. -/
structure Run extends SyncVars where
  phase : Nat → Phase
  recorded : List Nat
  fresh : List Nat
  destroyed : List Nat

inductive Op where
  | static (v : Nat)
  | init (type : SyncVariableType) (v real e : Nat) (swapped : Bool)
  | use (type : SyncVariableType) (v real e : Nat) (swapped : Bool)
  | recordSyncEvent (type : SyncVariableType) (v event : Nat)
  | destroy (v : Nat)
  | epochBegin

namespace Run

/-- The variable has got an entry when the exchange was made. -/
def ready (s : Run) (t : SyncVars) (v e : Nat) (swapped : Bool) : Run :=
  if swapped then
    { toSyncVars := t
      phase := Function.update s.phase v (.ready e)
      recorded := s.recorded ++ [e]
      fresh := s.fresh ++ [e]
      destroyed := s.destroyed }
  else { s with toSyncVars := t }

/-- `none`: the program does not get over the call. -/
def exec (s : Run) : Op → Option Run
  | .static v =>
    some { s with
      real := Function.update s.real v 0
      syncentry := Function.update s.syncentry v 0
      phase := Function.update s.phase v .static }
  | .init type v real e swapped => (s.init type v real e swapped).map fun t => s.ready t v e swapped
  | .use type v real e swapped =>
    (s.use type v real e swapped).map fun t => s.ready t v e (isInvalidSyncVar (s.real v) && swapped)
  | .recordSyncEvent type v event => some { s with toSyncVars := s.toSyncVars.recordSyncEvent type v event }
  | .destroy v =>
    (s.deferSync v).map fun t =>
      { s with
        toSyncVars := t
        phase := Function.update s.phase v .destroyed
        destroyed := s.destroyed ++ [s.syncentry v] }
  | .epochBegin =>
    s.xsync.epochBegin.map fun (_, xsync) =>
      { s with xsync, recorded := s.recorded.filter (· ∉ s.destroyed), fresh := [], destroyed := [] }

/-- The heap has room for a real variable and its entry. -/
def allocates (s : Run) (type : SyncVariableType) (real e : Nat) : Prop :=
  s.xsync.allocates real (type.realSize + SYNC_EVENT_LIST_SIZE) ∧
    (s.allocRealSyncVar real type.realSize).xsync.allocates e SYNC_ENTRY_SIZE

/-- What the program does: it uses what it has initialized, and destroys it at most once. Only mutexes and condition variables
    have a static initializer, and no barrier is initialized by two threads at once. -/
def legal (s : Run) : Op → Prop
  | .static _ | .epochBegin => True
  | .init type _ real e swapped => type ≠ .thread ∧ (type = .barrier → swapped = true) ∧ s.allocates type real e
  | .use type v real e _ => (type = .mutex ∨ type = .cond) ∧ s.phase v ≠ .unset ∧ s.allocates type real e
  | .recordSyncEvent _ v _ => ∃ e, s.phase v = .ready e
  | .destroy v => s.phase v = .static ∨ ∃ e, s.phase v = .ready e

/-- A variable that is destroyed has been set up, by its initialization or by a use. -/
def setUp (s : Run) : Op → Prop
  | .destroy v => ∃ e, s.phase v = .ready e
  | .static _ | .init .. | .use .. | .recordSyncEvent .. | .epochBegin => True

/-- The variables hold anything. -/
def started (real syncentry : Nat → Nat) : Run where
  xsync := .initialized
  real := real
  syncentry := syncentry
  phase _ := .unset
  recorded := []
  fresh := []
  destroyed := []

def system : Transition.System Run Op where
  init s := ∃ real syncentry, s = started real syncentry
  step s op s' := s.legal op ∧ s.exec op = some s'

end Run

end SyncVars

end DoubleTake
