import DoubleTake.Lib.IStream

/-! The memory map of the process (`selfmap.hh`, `interval.hh`): how the constructor of `selfmap` reads `/proc/self/maps`. -/

namespace DoubleTake

open IStream (Extraction hexULong decInt getN getline)

/-- A range of addresses, without its limit. -/
structure Interval where
  base : Nat
  limit : Nat
  deriving DecidableEq, Repr

/-- `operator<`: intervals that overlap count as equal. -/
def Interval.lt (a b : Interval) : Bool := decide (a.limit ≤ b.base)

def Interval.contains (a : Interval) (x : Nat) : Bool := decide (a.base ≤ x) && decide (x < a.limit)

/-- A mapping. One that nothing has been read into is not valid, and has no file. -/
structure Mapping where
  valid : Bool
  base : Nat
  limit : Nat
  readable : Bool
  writable : Bool
  executable : Bool
  copy_on_write : Bool
  offset : Nat
  file : List Char
  deriving DecidableEq, Repr

namespace Mapping

def empty : Mapping := ⟨false, 0, 0, false, false, false, false, 0, []⟩

def make (base limit : Nat) (perms : List Char) (offset : Nat) (file : List Char) : Mapping where
  valid := true
  base := base
  limit := limit
  readable := perms[0]? == some 'r'
  writable := perms[1]? == some 'w'
  executable := perms[2]? == some 'x'
  copy_on_write := perms[3]? == some 'p'
  offset := offset
  file := file

/-- The loop over spaces and tabs, for so many rounds at most. -/
def skipBlanks : Nat → Extraction Unit
  | 0 => pure ()
  | n + 1 => do
    let c ← IStream.peek
    if c = some ' ' ∨ c = some '\t' then
      IStream.ignore
      skipBlanks n
    else return ()

/-- `operator>>`. Each round of the loop takes a character, so there are no more rounds than characters. -/
def extract (m : Mapping) : Extraction Mapping := do
  let f ← MonadState.get
  if f.good && !f.eofbit then
    let base ← hexULong
    let c ← IStream.get
    if c ≠ some '-' then return m
    else
      let limit ← hexULong
      let c ← IStream.get
      if c ≠ some ' ' then return m
      else
        let perms ← getN 5
        let offset ← hexULong
        let _ ← hexULong
        let c ← IStream.get
        if c ≠ some ':' then return m
        else
          let _ ← hexULong
          let _ ← decInt
          let f ← MonadState.get
          skipBlanks (f.rest.length + 1)
          let path ← getline
          return make base limit perms offset path
  else return m

end Mapping

/-- `_mappings`, in the order of the map, and `_main_exe`. -/
structure SelfMap where
  mappings : List (Interval × Mapping)
  main_exe : List Char
  deriving DecidableEq, Repr

namespace SelfMap

/-- `_mappings[key] = m`: a key that is neither less nor greater keeps its place. -/
def assign (key : Interval) (m : Mapping) : List (Interval × Mapping) → List (Interval × Mapping)
  | [] => [(key, m)]
  | (k, n) :: l => if key.lt k then (key, m) :: (k, n) :: l else if k.lt key then (k, n) :: assign key m l else (k, m) :: l

/-- The body of the loop behind the extraction. -/
def add (s : SelfMap) (gotMainExe : Bool) (m : Mapping) : SelfMap :=
  let s := if gotMainExe then s else { s with main_exe := m.file }
  if m.valid then { s with mappings := assign ⟨m.base, m.limit⟩ m s.mappings } else s

/-- The loop of the constructor, for so many rounds at most. -/
def readMaps (f : IStream) (s : SelfMap) (gotMainExe : Bool) : Nat → Option SelfMap
  | 0 => none
  | n + 1 =>
    if f.good && !f.eofbit then
      let (m, f) := Mapping.extract Mapping.empty f
      readMaps f (s.add gotMainExe m) true n
    else some s

/-- The constructor, for the text of `/proc/self/maps`. All rounds but the last take a character. -/
def selfmap (text : List Char) : Option SelfMap := readMaps (IStream.ofList text) ⟨[], []⟩ false (text.length + 2)

end SelfMap

end DoubleTake
