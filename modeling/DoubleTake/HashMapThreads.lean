import DoubleTake.HashMap
import DoubleTake.Lib.Linearizable

/-! The hash map of `hashmap.hh` in the hands of several threads: the spin lock of each bucket (`spinlock.hh`), and the accesses of
    `insert`, `insertIfAbsent` and `find` to the memory that the threads share, one a step, in the order of the source. A `find`
    takes no lock. -/

namespace DoubleTake

open Linearizable (Event)

variable {κ ν : Type}

/-- Who calls `getEntry`: `find` without the lock of the bucket, `insertIfAbsent` with it. -/
inductive Search (κ ν : Type) where
  | find (key : κ) (keylen : Nat)
  | insertIfAbsent (entry : HashMapEntry κ ν)
  deriving DecidableEq, Repr

def Search.key : Search κ ν → κ
  | .find key _ => key
  | .insertIfAbsent entry => entry.key

def Search.keylen : Search κ ν → Nat
  | .find _ keylen => keylen
  | .insertIfAbsent entry => entry.keylen

inductive MapCall (κ ν : Type) where
  | insert (entry : HashMapEntry κ ν)
  | search (q : Search κ ν)
  deriving DecidableEq, Repr

/-- What a call returns: nothing, `isFound`, or what `find` has put in `*value`. -/
inductive MapReturn (ν : Type) where
  | inserted
  | present (isFound : Bool)
  | value (found : Option ν)
  deriving DecidableEq, Repr

/-- The accesses of `insertEntry` behind the new entry: `head->prev`, the writes of `__insert_between` in their order, and the two of
    `head->count++`. -/
inductive LinkStep where
  | tail
  | nodeNext (prev : HashNode)
  | nodePrev (prev : HashNode)
  | prevNext (prev : HashNode)
  | nextPrev
  | loadCount
  | storeCount (n : Nat)
  deriving DecidableEq, Repr

/-- What a thread does next. -/
inductive MapPc (κ ν : Type) where
  | idle
  /-- `spinlock::lock`: the exchange. -/
  | lock (bucket : Nat) (c : MapCall κ ν)
  /-- `getEntry`: the first entry, the count, and the rounds of the loop. -/
  | first (q : Search κ ν)
  | count (q : Search κ ν) (entry : HashNode)
  | loop (q : Search κ ν) (count : Nat) (entry : HashNode)
  | next (q : Search κ ν) (count : Nat) (a : Nat)
  /-- `find`: `entry->value`. -/
  | value (a : Nat)
  /-- `insertEntry`: `createNewEntry`, then the accesses for the new entry. -/
  | create (entry : HashMapEntry κ ν) (r : MapReturn ν)
  | link (bucket a : Nat) (r : MapReturn ν) (step : LinkStep)
  /-- `spinlock::unlock`. -/
  | unlock (bucket : Nat) (r : MapReturn ν)
  | ret (r : MapReturn ν)
  /-- `find`: it takes for an entry what is none, the head of a bucket. -/
  | wild
  deriving DecidableEq, Repr

/-- The memory of the map, the `_lock` of each bucket, and the threads. -/
structure SharedMap (κ ν : Type) where
  map : HashMap κ ν
  lock : Nat → Nat
  pc : Nat → MapPc κ ν

/-- A call, a return, the address that the internal heap gives to a new entry, another access, or the rest of a `find` that reads
    on from the head of a bucket: it compares `count` with `keylen` and the lock with the key, and goes on to the entries, to the
    head again, or off the map. What it finds is left open. -/
inductive MapAct (κ ν : Type) where
  | event (e : Event (MapCall κ ν) (MapReturn ν))
  | allocate (t a : Nat)
  | go (t : Nat)
  | stray (t : Nat) (found : Option ν)

def MapAct.visible : MapAct κ ν → Option (Event (MapCall κ ν) (MapReturn ν))
  | .event e => some e
  | .allocate _ _ => none
  | .go _ => none
  | .stray _ _ => none

namespace SharedMap

def setPc (s : SharedMap κ ν) (t : Nat) (pc : MapPc κ ν) : SharedMap κ ν := { s with pc := Function.update s.pc t pc }

def setLock (s : SharedMap κ ν) (bucket n : Nat) : SharedMap κ ν := { s with lock := Function.update s.lock bucket n }

/-- The bucket of a search. -/
def bucketOf (s : SharedMap κ ν) (q : Search κ ν) : Nat := s.map.hashIndex q.key q.keylen

/-- How a call begins. -/
def begin (s : SharedMap κ ν) : MapCall κ ν → MapPc κ ν
  | .insert entry => .lock (s.map.hashIndex entry.key entry.keylen) (.insert entry)
  | .search (.find key keylen) => .first (.find key keylen)
  | .search (.insertIfAbsent entry) => .lock (s.map.hashIndex entry.key entry.keylen) (.search (.insertIfAbsent entry))

/-- What comes after the lock. -/
def locked : MapCall κ ν → MapPc κ ν
  | .insert entry => .create entry .inserted
  | .search q => .first q

/-- The search has found an entry. -/
def found (s : SharedMap κ ν) (a : Nat) : Search κ ν → MapPc κ ν
  | .find _ _ => .value a
  | .insertIfAbsent entry => .unlock (s.map.hashIndex entry.key entry.keylen) (.present true)

/-- The search has come to its end. -/
def absent : Search κ ν → MapPc κ ν
  | .find _ _ => .ret (.value none)
  | .insertIfAbsent entry => .create entry (.present false)

def setNext (s : SharedMap κ ν) (u v : HashNode) : SharedMap κ ν :=
  { s with map := { s.map with links := { s.map.links with next := Function.update s.map.links.next u v } } }

def setPrev (s : SharedMap κ ν) (u v : HashNode) : SharedMap κ ν :=
  { s with map := { s.map with links := { s.map.links with prev := Function.update s.map.links.prev u v } } }

def setCount (s : SharedMap κ ν) (bucket n : Nat) : SharedMap κ ν :=
  { s with map := { s.map with count := Function.update s.map.count bucket n } }

/-- An access of `insertEntry`. -/
def linkStep (s : SharedMap κ ν) (t bucket a : Nat) (r : MapReturn ν) : LinkStep → SharedMap κ ν
  | .tail => s.setPc t (.link bucket a r (.nodeNext (s.map.links.prev (.bucket bucket))))
  | .nodeNext prev => (s.setNext (.entry a) (.bucket bucket)).setPc t (.link bucket a r (.nodePrev prev))
  | .nodePrev prev => (s.setPrev (.entry a) prev).setPc t (.link bucket a r (.prevNext prev))
  | .prevNext prev => (s.setNext prev (.entry a)).setPc t (.link bucket a r .nextPrev)
  | .nextPrev => (s.setPrev (.bucket bucket) (.entry a)).setPc t (.link bucket a r .loadCount)
  | .loadCount => s.setPc t (.link bucket a r (.storeCount ((s.map.count bucket + 1) % 2 ^ 64)))
  | .storeCount n => (s.setCount bucket n).setPc t (.unlock bucket r)

variable [DecidableEq κ] [DecidableEq ν]

/-- The round of the search on a node; `keylen` and `key` of an entry are not written again. -/
def examine (s : SharedMap κ ν) (q : Search κ ν) (count : Nat) : HashNode → MapPc κ ν
  | .bucket _ => .wild
  | .entry a =>
    match s.map.entries a with
    | none => .wild
    | some entry => if entry.keylen = q.keylen ∧ entry.key = q.key then s.found a q else .next q count a

/-- The next access of a thread. -/
def go (s : SharedMap κ ν) (t : Nat) : Option (SharedMap κ ν) :=
  match s.pc t with
  | .idle => none
  | .lock bucket c =>
    if s.lock bucket = 1 then some (s.setLock bucket 1) else some ((s.setLock bucket 1).setPc t (locked c))
  | .first q => some (s.setPc t (.count q (s.map.links.next (.bucket (s.bucketOf q)))))
  | .count q entry => some (s.setPc t (.loop q (HashMap.toInt (s.map.count (s.bucketOf q))).toNat entry))
  | .loop q 0 _ => some (s.setPc t (absent q))
  | .loop q (count + 1) entry => some (s.setPc t (s.examine q count entry))
  | .next q count entry => some (s.setPc t (.loop q count (s.map.links.next (.entry entry))))
  | .value a =>
    match s.map.entries a with
    | none => some (s.setPc t .wild)
    | some entry => some (s.setPc t (.ret (.value (some entry.value))))
  | .create _ _ => none
  | .link bucket a r step => some (s.linkStep t bucket a r step)
  | .unlock bucket r => some ((s.setLock bucket 0).setPc t (.ret r))
  | .ret _ => none
  | .wild => none

/-- `createNewEntry`: what it writes is not shared yet. -/
def allocate (s : SharedMap κ ν) (t a : Nat) : Option (SharedMap κ ν) :=
  match s.pc t with
  | .create entry r =>
    if s.map.allocates a then
      some ({ s with map := s.map.createNewEntry a entry.key entry.keylen entry.value }.setPc t
        (.link (s.map.hashIndex entry.key entry.keylen) a r .tail))
    else none
  | _ => none

def exec (s : SharedMap κ ν) : MapAct κ ν → Option (SharedMap κ ν)
  | .event (.call t c) => if s.pc t = .idle then some (s.setPc t (s.begin c)) else none
  | .event (.ret t r) => if s.pc t = .ret r then some (s.setPc t .idle) else none
  | .allocate t a => s.allocate t a
  | .go t => s.go t
  | .stray t found => if s.pc t = .wild then some (s.setPc t (.ret (.value found))) else none

/-- No `find` that has taken the head of a bucket for an entry comes to an end. -/
def noStray (_ : SharedMap κ ν) : MapAct κ ν → Prop
  | .stray _ _ => False
  | .event _ | .allocate _ _ | .go _ => True

instance (s : SharedMap κ ν) : DecidablePred s.noStray
  | .stray _ _ => inferInstanceAs (Decidable False)
  | .event _ | .allocate _ _ | .go _ => inferInstanceAs (Decidable True)

/-- Any number of threads on a new map with any hash function and any number of buckets. -/
def system (κ ν : Type) [DecidableEq κ] [DecidableEq ν] : Transition.System (SharedMap κ ν) (MapAct κ ν) where
  init s := ∃ hashfunc size, 0 < size ∧ s = ⟨.initialized κ ν hashfunc size, fun _ => 0, fun _ => .idle⟩
  step s a s' := s.exec a = some s'

/-- The map as an object of one thread: its entries in the order of their insertion, and the first with the key is found. -/
def lookup (m : List (HashMapEntry κ ν)) (key : κ) (keylen : Nat) : Option ν :=
  (m.find? fun entry => decide (entry.keylen = keylen ∧ entry.key = key)).map (·.value)

def spec (κ ν : Type) [DecidableEq κ] : Linearizable.Spec (List (HashMapEntry κ ν)) (MapCall κ ν) (MapReturn ν) where
  init := []
  apply m
    | .insert entry => (m ++ [entry], .inserted)
    | .search (.find key keylen) => (m, .value (lookup m key keylen))
    | .search (.insertIfAbsent entry) =>
      if (lookup m entry.key entry.keylen).isSome then (m, .present true) else (m ++ [entry], .present false)

end SharedMap

end DoubleTake
