import Mathlib.Algebra.Group.Int.Defs
import Mathlib.Algebra.Group.Nat.Defs
import DoubleTake.Lib.CircularList
import DoubleTake.Lib.Transition

/-! The hash map of `hashmap.hh` with its lists (`list.hh`): each bucket has a circular list of entries and a count of them,
    which drives the search. The entries are allocated in the internal heap. -/

namespace DoubleTake

open CircularList

/-- A `list_t`: the one in a `HashEntry`, which is the head of a list, or the one in an `Entry`. -/
inductive HashNode where
  | bucket (index : Nat)
  | entry (addr : Nat)
  deriving DecidableEq, Repr

structure HashMapEntry (κ ν : Type) where
  key : κ
  keylen : Nat
  value : ν
  deriving DecidableEq, Repr

/-- The map; `none` is where no entry is allocated. -/
structure HashMap (κ ν : Type) where
  hashfunc : κ → Nat → Nat
  buckets : Nat
  links : Links HashNode
  count : Nat → Nat
  entries : Nat → Option (HashMapEntry κ ν)

namespace HashMap

def INTERNAL_HEAP_SIZE : Nat := 1048576 * 4096

/-- `sizeof(struct Entry)`: two pointers, the key, `keylen` and the value. -/
def ENTRY_SIZE : Nat := 40

/-- What an `int` gets from a `size_t`. -/
def toInt (n : Nat) : Int := (BitVec.ofNat 32 n).toInt

variable {κ ν : Type} [DecidableEq κ]

/-- After `initialize`. -/
def initialized (κ ν : Type) (hashfunc : κ → Nat → Nat) (size : Nat) : HashMap κ ν where
  hashfunc := hashfunc
  buckets := size
  links := ⟨id, id⟩
  count := fun _ => 0
  entries := fun _ => none

def hashIndex (s : HashMap κ ν) (key : κ) (keylen : Nat) : Nat := s.hashfunc key keylen % s.buckets

/-- The loop of `getEntry`; `none`: it reads what is not an entry. -/
def getEntryLoop (s : HashMap κ ν) (key : κ) (keylen : Nat) : Nat → HashNode → Option (Option Nat)
  | 0, _ => some none
  | _ + 1, .bucket _ => none
  | count + 1, .entry a =>
    match s.entries a with
    | none => none
    | some entry =>
      if entry.keylen = keylen ∧ entry.key = key then some (some a)
      else s.getEntryLoop key keylen count (s.links.next (.entry a))

def getEntry (s : HashMap κ ν) (first : Nat) (key : κ) (keylen : Nat) : Option (Option Nat) :=
  s.getEntryLoop key keylen (toInt (s.count first)).toNat (s.links.next (.bucket first))

def find (s : HashMap κ ν) (key : κ) (keylen : Nat) : Option (Option ν) :=
  (s.getEntry (s.hashIndex key keylen) key keylen).map fun entry => entry.bind fun a => (s.entries a).map (·.value)

/-- `SourceHeap::allocate` has given the address. -/
def createNewEntry (s : HashMap κ ν) (a : Nat) (key : κ) (keylen : Nat) (value : ν) : HashMap κ ν :=
  { s with links := s.links.nodeInit (.entry a), entries := Function.update s.entries a (some ⟨key, keylen, value⟩) }

def insertEntry (s : HashMap κ ν) (head a : Nat) (key : κ) (keylen : Nat) (value : ν) : HashMap κ ν :=
  let s := s.createNewEntry a key keylen value
  { s with
    links := s.links.insertTail (.entry a) (.bucket head)
    count := Function.update s.count head ((s.count head + 1) % 2 ^ 64) }

def insert (s : HashMap κ ν) (a : Nat) (key : κ) (keylen : Nat) (value : ν) : HashMap κ ν :=
  s.insertEntry (s.hashIndex key keylen) a key keylen value

def insertIfAbsent (s : HashMap κ ν) (a : Nat) (key : κ) (keylen : Nat) (value : ν) : Option (Bool × HashMap κ ν) :=
  match s.getEntry (s.hashIndex key keylen) key keylen with
  | none => none
  | some (some _) => some (true, s)
  | some none => some (false, s.insertEntry (s.hashIndex key keylen) a key keylen value)

/-- `entry->erase()` and `SourceHeap::deallocate`. -/
def eraseEntry (s : HashMap κ ν) (a : Nat) : HashMap κ ν :=
  { s with links := s.links.removeNode (.entry a), entries := Function.update s.entries a none }

/-- `first->count--`. -/
def decrementCount (s : HashMap κ ν) (first : Nat) : HashMap κ ν :=
  { s with count := Function.update s.count first ((s.count first + (2 ^ 64 - 1)) % 2 ^ 64) }

def erase (s : HashMap κ ν) (key : κ) (keylen : Nat) : Option (Bool × HashMap κ ν) :=
  match s.getEntry (s.hashIndex key keylen) key keylen with
  | none => none
  | some (some a) => some (true, (s.eraseEntry a).decrementCount (s.hashIndex key keylen))
  | some none => some (false, s.decrementCount (s.hashIndex key keylen))

/-! ### Iteration -/

/-- `sizeof(struct HashEntry)`: two pointers, the lock and the count. -/
def HASH_ENTRY_SIZE : Nat := 32

/-- `initialize`; `none` where the internal heap has no room for the buckets. -/
def initializeMap (κ ν : Type) (hashfunc : κ → Nat → Nat) (size : Nat) : Option (HashMap κ ν) :=
  if size * HASH_ENTRY_SIZE ≤ INTERNAL_HEAP_SIZE then some (initialized κ ν hashfunc size) else none

/-- Where an iterator is; a null entry is the end. -/
structure Iterator where
  entry : Option HashNode
  pos : Nat
  deriving DecidableEq, Repr

/-- The constructor, which takes the position as an `int`. -/
def Iterator.make (entry : HashNode) (pos : Nat) : Iterator := ⟨some entry, (toInt pos % 2 ^ 64).toNat⟩

def «end» : Iterator := ⟨none, 0⟩

/-- The loop over the `n` buckets from `pos` on: the first one that is not empty. -/
def findBucket (s : HashMap κ ν) : Nat → Nat → Option Nat
  | 0, _ => none
  | n + 1, pos => if s.count pos ≠ 0 then some pos else s.findBucket n (pos + 1)

def getFirstEntry (s : HashMap κ ν) (pos : Nat) : HashNode := s.links.next (.bucket pos)

def begin (s : HashMap κ ν) : Iterator :=
  match s.findBucket s.buckets 0 with
  | some pos => .make (s.getFirstEntry pos) pos
  | none => «end»

/-- Without a bucket at the position the end of its list is never seen. -/
def isListTail (s : HashMap κ ν) (node : HashNode) (pos : Nat) : Bool := decide (pos < s.buckets ∧ s.links.next node = .bucket pos)

/-- `operator++`; `none` at the end, where it reads through a null pointer. -/
def advance (s : HashMap κ ν) (it : Iterator) : Option Iterator :=
  it.entry.map fun entry =>
    if ¬ s.isListTail entry it.pos then ⟨some (s.links.next entry), it.pos⟩
    else
      match s.findBucket (s.buckets - (it.pos + 1)) (it.pos + 1) with
      | some pos => ⟨some (s.getFirstEntry pos), pos⟩
      | none => ⟨none, s.buckets⟩

/-- The loop of a caller, `for(i = begin(); i != end(); i++)`, from an iterator on, for `fuel` rounds at most: what it visits. -/
def iterate (s : HashMap κ ν) : Nat → Iterator → Option (List HashNode)
  | 0, _ => none
  | fuel + 1, it =>
    match it.entry with
    | none => some []
    | some entry => do
      let it ← s.advance it
      let rest ← s.iterate fuel it
      some (entry :: rest)

/-! ### Runs -/

/-- The operations, with the address that the heap gives to a new entry. -/
inductive Op (κ ν : Type) where
  | insert (a : Nat) (key : κ) (keylen : Nat) (value : ν)
  | insertIfAbsent (a : Nat) (key : κ) (keylen : Nat) (value : ν)
  | erase (key : κ) (keylen : Nat)
  | find (key : κ) (keylen : Nat)
  deriving DecidableEq, Repr

/-- The heap gives what is not in use, as long as there is room. -/
def allocates (s : HashMap κ ν) (a : Nat) : Bool := (s.entries a).isNone && decide (a < INTERNAL_HEAP_SIZE / ENTRY_SIZE)

def exec (s : HashMap κ ν) : Op κ ν → Option (HashMap κ ν)
  | .insert a key keylen value => if s.allocates a then some (s.insert a key keylen value) else none
  | .insertIfAbsent a key keylen value =>
    (s.insertIfAbsent a key keylen value).bind fun r => if r.1 || s.allocates a then some r.2 else none
  | .erase key keylen => (s.erase key keylen).map Prod.snd
  | .find key keylen => (s.find key keylen).map fun _ => s

/-- The operations on a map with any hash function and any number of buckets. -/
def system (κ ν : Type) [DecidableEq κ] : Transition.System (HashMap κ ν) (Op κ ν) where
  init s := ∃ hashfunc size, 0 < size ∧ s = initialized κ ν hashfunc size
  step s op s' := s.exec op = some s'

end HashMap

end DoubleTake
