import DoubleTake.CallSite
import DoubleTake.HashFuncs
import DoubleTake.HashMap
import DoubleTake.SentinelMap

/-! The objects whose allocations and deallocations are traced during a replay (`memtrack.hh`, `memtrack.cpp`), and what a trap on
    a watchpoint makes of them (`watchpoint.cpp`). -/

namespace DoubleTake

abbrev MEMTRACK_MAP_SIZE : Nat := 4096

/-- What an object is inserted for: a fault, or `OBJECT_TYPE_LEAK`. -/
inductive ErrorType where
  | fault (type : FaultyObjectType)
  | leak
  deriving DecidableEq, Repr

/-- The value in `faultyObjectType`. -/
def ErrorType.code : ErrorType → Nat
  | .fault .overflow => 1
  | .fault .useAfterFree => 2
  | .leak => 4

inductive MemTrackType where
  | malloc
  | free
  deriving DecidableEq, Repr

def MemTrackType.code : MemTrackType → Nat
  | .malloc => 1
  | .free => 2

/-- The frames that are printed for a call site. -/
def CallSite.frames (s : CallSite) : List Nat := (List.range s.depth).map s.callsite

structure TrackObject where
  start : Nat
  objectSize : Nat
  currentObjectSize : Nat
  objecttype : Nat
  tracktype : Nat
  tracedOps : Nat
  allocSite : CallSite
  freeSite : CallSite

namespace TrackObject

/-- `none`: the assertion on the address fails. -/
def setup (o : TrackObject) (addr sz : Nat) (type : ErrorType) (objectExist : Bool) : Option TrackObject :=
  if addr = 0 then none
  else
    let o := { o with start := addr, objectSize := sz }
    let o :=
      if objectExist then { o with objecttype := o.objecttype ||| type.code }
      else { o with objecttype := type.code, tracktype := MemTrackType.malloc.code }
    let o := if type = .fault .useAfterFree then { o with tracktype := o.tracktype ||| MemTrackType.free.code } else o
    some { o with tracedOps := 0 }

/-- `hasUseafterfree`, `hasLeak` and `hasOverflow`. -/
def has (o : TrackObject) (type : ErrorType) : Bool := o.objecttype &&& type.code != 0

def hasUseafterfree (o : TrackObject) : Bool := o.has (.fault .useAfterFree)

def hasLeak (o : TrackObject) : Bool := o.has .leak

def hasOverflow (o : TrackObject) : Bool := o.has (.fault .overflow)

def saveCallsite (o : TrackObject) (size : Nat) (type : MemTrackType) (callsites : List Nat) : TrackObject :=
  let o :=
    match type with
    | .malloc => { o with allocSite := o.allocSite.save callsites, currentObjectSize := size }
    | .free => { o with freeSite := o.freeSite.save callsites }
  { o with tracedOps := type.code }

def isInsideObject (o : TrackObject) (addr : Nat) : Bool :=
  decide (o.start ≤ addr ∧ addr ≤ (o.start + o.currentObjectSize) % 2 ^ 64)

def isFreed (o : TrackObject) : Bool := o.tracedOps == MemTrackType.free.code

/-- The condition of `check`: an object that has only leaked has to have the same size again. -/
def matchesSize (o : TrackObject) (size : Nat) : Bool :=
  o.hasUseafterfree || o.hasOverflow || (o.hasLeak && o.objectSize == size)

end TrackObject

/-- The map takes the start of an object to where its track object is; it is `none` before the first insertion. Track objects are
    allocated in the internal heap and never freed. -/
structure MemTrack where
  trackMap : Option (HashMap Nat Nat)
  objects : Nat → Option TrackObject

namespace MemTrack

/-- The hash function of the map. -/
def hashAddr (addr : Nat) (_ : Nat) : Nat := (HashFuncs.hashAddr (BitVec.ofNat 64 addr)).toNat

/-- `sizeof(start)`. -/
abbrev KEYLEN : Nat := 8

def constructed : MemTrack := ⟨none, fun _ => none⟩

def initialized : HashMap Nat Nat := .initialized Nat Nat hashAddr MEMTRACK_MAP_SIZE

/-- What the internal heap gives for a new object: the entry of the map, the address of the track object, and what is in its
    memory, on which no constructor runs. -/
structure Fresh where
  entry : Nat
  object : Nat
  contents : TrackObject

def allocates (s : MemTrack) (map : HashMap Nat Nat) (fresh : Fresh) : Bool :=
  map.allocates fresh.entry && (s.objects fresh.object).isNone

/-- The part of `insert` after the search. -/
def insertFound (s : MemTrack) (map : HashMap Nat Nat) (fresh : Fresh) (start size : Nat) (type : ErrorType) :
    Option Nat → Option MemTrack
  | some object => do
    let o ← s.objects object
    let o ← o.setup start size type true
    some ⟨some map, Function.update s.objects object (some o)⟩
  | none =>
    if s.allocates map fresh then do
      let o ← fresh.contents.setup start size type false
      some ⟨some (map.insert fresh.entry start KEYLEN fresh.object), Function.update s.objects fresh.object (some o)⟩
    else none

def insert (s : MemTrack) (fresh : Fresh) (start size : Nat) (type : ErrorType) : Option MemTrack :=
  let map := s.trackMap.getD initialized
  if start = 0 ∧ type = .fault .overflow then some { s with trackMap := some map }
  else do
    let found ← map.find start KEYLEN
    s.insertFound map fresh start size type found

/-- The lookup that the operations begin with. `none`: it fails, or finds what is not a track object. -/
def lookup (s : MemTrack) (map : HashMap Nat Nat) (start : Nat) : Option (Option (Nat × TrackObject)) := do
  let found ← map.find start KEYLEN
  match found with
  | none => some none
  | some object => (s.objects object).map fun o => some (object, o)

/-- "Leaked object", with the call stack of the operation. -/
structure LeakReport where
  start : Nat
  objectSize : Nat
  callStack : List Nat
  deriving DecidableEq, Repr

def check (s : MemTrack) (start size : Nat) (type : MemTrackType) (callsites : List Nat) :
    Option (Option LeakReport × MemTrack) :=
  match s.trackMap with
  | none => some (none, s)
  | some map => do
    match ← s.lookup map start with
    | none => some (none, s)
    | some (object, o) =>
      if o.matchesSize size then
        let s := { s with objects := Function.update s.objects object (some (o.saveCallsite size type callsites)) }
        some (if o.hasLeak then some ⟨o.start, o.objectSize, callsites⟩ else none, s)
      else some (none, s)

/-- `none`: the start is not tracked, and the assertion fails. -/
def getFaultType (s : MemTrack) (map : SentinelMap) (start faultyaddr : Nat) : Option (Option FaultyObjectType) := do
  let trackMap ← s.trackMap
  match ← s.lookup trackMap start with
  | none => none
  | some (_, o) =>
    if o.isFreed then some (if o.isInsideObject faultyaddr then some .useAfterFree else none)
    else (map.isOverflow faultyaddr).map fun overflow => if overflow then some .overflow else none

/-- What is printed for an object: its allocation call stack and, after a use of it, its deallocation call stack. -/
structure Stacks where
  alloc : List Nat
  free : Option (List Nat)
  deriving DecidableEq, Repr

/-- `none`: an assertion fails. -/
def print (s : MemTrack) (start : Nat) (type : FaultyObjectType) : Option (Option Stacks) := do
  let trackMap ← s.trackMap
  match ← s.lookup trackMap start with
  | none => some none
  | some (_, o) =>
    match type with
    | .useAfterFree => if o.isFreed then some (some ⟨o.allocSite.frames, some o.freeSite.frames⟩) else none
    | .overflow => some (some ⟨o.allocSite.frames, none⟩)

end MemTrack

/-! ### Traps -/

/-- The state of `watchpoint`, with the heap that it watches; the watchpoints themselves are those of the sentinel map. -/
structure Tracer where
  map : SentinelMap
  currentvalue : Nat → Nat
  faultySite : Nat → CallSite
  track : MemTrack

namespace Tracer

open MemTrack

/-- What the loop of `findFaultyObject` has found. -/
structure Search where
  currentvalue : Nat → Nat
  object : Option Nat
  trigPoints : Nat

/-- The body of the loop, for the watchpoint `i`. -/
def findFaultyStep (map : SentinelMap) (c : Search) (w : FaultyObject × Nat) : Search :=
  let value := map.word w.1.faultyaddr
  if value ≠ c.currentvalue w.2 ∨ map.wp.length = 1 then
    ⟨Function.update c.currentvalue w.2 value, some w.2, c.trigPoints + 1⟩
  else c

def findFaultyObject (s : Tracer) : Option Nat × Tracer :=
  let c := s.map.wp.zipIdx.foldl (findFaultyStep s.map) ⟨s.currentvalue, none, 0⟩
  (if c.trigPoints ≠ 0 then c.object else none, { s with currentvalue := c.currentvalue })

/-- The value is that of the word at the address, as all callers give it. -/
def addWatchpoint (s : Tracer) (fresh : Fresh) (addr : Nat) (objtype : FaultyObjectType) (objectstart objectsize : Nat) :
    Option Tracer := do
  let track ← s.track.insert fresh objectstart objectsize (.fault objtype)
  some { s with
    map := s.map.addWatchpoint addr objtype objectstart
    currentvalue :=
      if s.map.wp.length < MAX_WATCHPOINTS then Function.update s.currentvalue s.map.wp.length (s.map.word addr)
      else s.currentvalue
    track := track }

/-- The loop of `installWatchpoints` over the values. -/
def installWatchpoints (s : Tracer) : Tracer :=
  let install := fun value (w : FaultyObject × Nat) => Function.update value w.2 (s.map.word w.1.faultyaddr)
  { s with currentvalue := s.map.wp.zipIdx.foldl install s.currentvalue }

/-- `trapHandler`: what is printed, and the state after it. `none`: an assertion fails. -/
def trap (s : Tracer) (inLibrary : Bool) (callStack : List Nat) : Option ((Option Watchpoint.Report × Option Stacks) × Tracer) :=
  let (object, s) := s.findFaultyObject
  match object with
  | none => some ((some .notFound, none), s)
  | some i =>
    if inLibrary then some ((none, none), s)
    else do
      let w ← s.map.wp[i]?
      let faultType ← s.track.getFaultType s.map w.objectstart w.faultyaddr
      let (report, faultySite) := Watchpoint.trapHandler s.faultySite ⟨some i, false, false, faultType, callStack⟩
      let s := { s with faultySite := faultySite }
      match report with
      | some (.fault _ type _) => do
        let printed ← if w.objectstart ≠ 0 then s.track.print w.objectstart type else some none
        some ((report, printed), s)
      | _ => some ((report, none), s)

/-- A watchpoint is added, a leak is found, the watchpoints are installed before the replay, an allocation or a deallocation is
    replayed, the program or its rollback changes the heap, or a trap comes. -/
inductive Act where
  | addWatchpoint (fresh : Fresh) (addr : Nat) (objtype : FaultyObjectType) (objectstart objectsize : Nat)
  | insertLeakageMap (fresh : Fresh) (ptr size : Nat)
  | installWatchpoints
  | check (start size : Nat) (type : MemTrackType) (callsites : List Nat)
  | run (mem : Mem) (bitmap : Bitmap)
  | trap (inLibrary : Bool) (callStack : List Nat)

def exec (s : Tracer) : Act → Option Tracer
  | .addWatchpoint fresh addr objtype objectstart objectsize => s.addWatchpoint fresh addr objtype objectstart objectsize
  | .insertLeakageMap fresh ptr size => (s.track.insert fresh ptr size .leak).map fun track => { s with track := track }
  | .installWatchpoints => some s.installWatchpoints
  | .check start size type callsites => (s.track.check start size type callsites).map fun r => { s with track := r.2 }
  | .run mem bitmap => some { s with map := { s.map with mem := mem, bitmap := bitmap } }
  | .trap inLibrary callStack => (s.trap inLibrary callStack).map Prod.snd

/-- Before any fault: no watchpoint, no object, and any heap. -/
def initial (mem : Mem) (bitmap : Bitmap) : Tracer := ⟨⟨mem, bitmap, []⟩, fun _ => 0, fun _ => .initial, .constructed⟩

def system : Transition.System Tracer Act where
  init s := ∃ mem bitmap, s = initial mem bitmap
  step s act s' := s.exec act = some s'

end Tracer

end DoubleTake
