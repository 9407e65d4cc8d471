import DoubleTake.SentinelMap
import DoubleTake.Quarantine

/-! The check for leaks (`leakcheck.hh`, `leakcheck.cpp`): a search for pointers from the registers, the stack and the globals
    through the objects of the heap, and a walk over the heap that reports the objects that the search has not come to. -/

namespace DoubleTake

/-! ### Marks in the header

The lowest bit of the block size says that an object has been reached. -/

namespace ObjectHeader

def isObjectFree (m : Mem) (ptr : Nat) : Bool := getObjectSize m ptr == 0

def getNextObject (m : Mem) (ptr : Nat) : Nat := ptr - SENTINEL_SIZE + 4 * SENTINEL_SIZE + getSize m ptr

abbrev OBJECT_CHECKED_WORD : Nat := 0x1
abbrev OBJECT_CHECKED_WORD_MASK : Nat := 0xFFFFFFFE

def setSize (m : Mem) (ptr sz : Nat) : Mem := m.write (ptr - 16) 4 sz

def markObjectChecked (m : Mem) (ptr : Nat) : Mem := setSize m ptr (getSize m ptr ||| OBJECT_CHECKED_WORD)

def cleanObjectChecked (m : Mem) (ptr : Nat) : Mem := setSize m ptr (getSize m ptr &&& OBJECT_CHECKED_WORD_MASK)

def isObjectChecked (m : Mem) (ptr : Nat) : Bool := getSize m ptr &&& OBJECT_CHECKED_WORD != 0

def doCheckObject (m : Mem) (ptr : Nat) : Bool := if isObjectFree m ptr || isObjectChecked m ptr then false else true

def checkLeakageAndClean (m : Mem) (ptr : Nat) : Bool × Mem :=
  if isObjectFree m ptr || isObjectChecked m ptr then (false, cleanObjectChecked m ptr) else (true, m)

def isValidObjectSize (size : Nat) : Bool := size != 0 && size &&& (size - 1) == 0

def isValidAddr (m : Mem) (ptr addr : Nat) : Bool :=
  isValidObjectSize (getObjectSize m ptr) && !(decide (addr < ptr) || decide (addr ≥ ptr + getObjectSize m ptr))

end ObjectHeader

/-! ### The check -/

/-- A piece of memory that is searched, from a word on. -/
structure Region where
  start : Nat
  stop : Nat
  aligned : start % WORD_SIZE = 0

/-- Where the search begins: the registers of the thread, its stack up to the top, and the global regions. -/
structure Roots where
  registers : List Nat
  stack : Region
  globals : List Region

/-- The state of a check. `leaks` holds what it has put into the map of leaks: objects and their sizes. -/
structure LeakCheck where
  map : SentinelMap
  unexploredObjects : List Nat
  heapBegin : Nat
  heapEnd : Nat
  leaks : List (Nat × Nat)

namespace LeakCheck

def isPossibleHeapPointer (c : LeakCheck) (addr : Nat) : Bool := decide (c.heapBegin < addr) && decide (addr < c.heapEnd)

def checkInsertUnexploredList (c : LeakCheck) (addr : Nat) : LeakCheck :=
  if c.isPossibleHeapPointer addr then { c with unexploredObjects := c.unexploredObjects ++ [addr] } else c

/-- The values of the words from `start` on that end at `stop` or before. -/
def wordsIn (m : Mem) (start stop : Nat) : List Nat :=
  (List.range ((stop / WORD_SIZE * WORD_SIZE - start) / WORD_SIZE)).map fun i => m.read (start + i * WORD_SIZE) WORD_SIZE

/-- `searchHeapPointers` inside a memory region. -/
def searchHeapPointers (c : LeakCheck) (start stop : Nat) : Except Fault LeakCheck :=
  if start % WORD_SIZE ≠ 0 then .error .assertion
  else .ok ((wordsIn c.map.mem start stop).foldl checkInsertUnexploredList c)

/-- The same for the registers. -/
def searchHeapPointersInsideRegisters (c : LeakCheck) (registers : List Nat) : LeakCheck :=
  registers.foldl checkInsertUnexploredList c

def searchHeapPointersInsideGlobals (c : LeakCheck) (globals : List Region) : Except Fault LeakCheck :=
  globals.foldlM (fun c r => if r.start ≠ 0 then c.searchHeapPointers r.start r.stop else .ok c) c

/-- The object that `exploreHeapObject` takes an address for. -/
def objectOf (map : SentinelMap) (addr : Nat) : Option Nat :=
  if ¬ ObjectHeader.isGoodObject map.mem addr then
    match map.findObjectStartAddr addr with
    | some objectStart =>
      if ¬ ObjectHeader.isGoodObject map.mem objectStart ∨ ¬ ObjectHeader.isValidAddr map.mem objectStart addr then none
      else some objectStart
    | none => none
  else if ObjectHeader.isValidAddr map.mem addr addr then some addr
  else none

def exploreHeapObject (c : LeakCheck) (addr : Nat) : Except Fault LeakCheck :=
  match objectOf c.map addr with
  | none => .ok c
  | some objectStart =>
    if ObjectHeader.doCheckObject c.map.mem objectStart then do
      let stop := objectStart + ObjectHeader.getObjectSize c.map.mem objectStart
      let c ← c.searchHeapPointers objectStart stop
      .ok { c with map := { c.map with mem := ObjectHeader.markObjectChecked c.map.mem objectStart } }
    else .ok c

/-- The loop of `traverseUnexploredList`, for `fuel` rounds at most. -/
def traverseUnexploredList : Nat → LeakCheck → Except Fault LeakCheck
  | 0, _ => .error .loop
  | fuel + 1, c =>
    match c.unexploredObjects with
    | [] => .ok c
    | addr :: rest => do
      let c ← exploreHeapObject { c with unexploredObjects := rest } addr
      traverseUnexploredList fuel c

def insertLeakageMap (c : LeakCheck) (ptr size : Nat) : LeakCheck := { c with leaks := c.leaks ++ [(ptr, size)] }

/-- The loop of `reportUnreachableNonfreedObjects`: every round goes to a higher address, so as many rounds are enough as
    there are bytes. -/
def reportFrom : Nat → LeakCheck → Nat → Bool → Bool × LeakCheck
  | 0, c, _, hasLeakage => (hasLeakage, c)
  | fuel + 1, c, ptr, hasLeakage =>
    if ptr < c.heapEnd then
      if c.map.word ptr = SENTINEL_WORD ∧ c.map.isSet ptr then
        let object := ptr + WORD_SIZE
        let (isLeakage, mem) := ObjectHeader.checkLeakageAndClean c.map.mem object
        let c := { c with map := { c.map with mem := mem } }
        let c := if isLeakage then c.insertLeakageMap object (ObjectHeader.getObjectSize mem object) else c
        reportFrom fuel c (ObjectHeader.getNextObject mem object) (hasLeakage || isLeakage)
      else reportFrom fuel c (ptr + WORD_SIZE) hasLeakage
    else (hasLeakage, c)

def reportUnreachableNonfreedObjects (c : LeakCheck) : Bool × LeakCheck :=
  c.reportFrom (c.heapEnd - c.heapBegin) c.heapBegin false

/-- `doSlowLeakCheck`: what it returns, and the state at its end. -/
def doSlowLeakCheck (fuel : Nat) (map : SentinelMap) (roots : Roots) (start stop : Nat) : Except Fault (Bool × LeakCheck) := do
  let c : LeakCheck := ⟨map, [], start + ObjectHeader.headerSize, stop, []⟩
  let c := c.searchHeapPointersInsideRegisters roots.registers
  let c ← c.searchHeapPointers roots.stack.start roots.stack.stop
  let c ← c.searchHeapPointersInsideGlobals roots.globals
  let c ← c.traverseUnexploredList fuel
  .ok c.reportUnreachableNonfreedObjects

end LeakCheck

end DoubleTake
