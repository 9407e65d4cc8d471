import Mathlib.Data.List.Infix
import DoubleTake.SelfMap
import DoubleTake.XMemory

/-! What the memory map of the process is used for (`selfmap.hh`, `xglobals.hh`): the stack of the initial thread, the text of the
    library and of the application, and the global regions that an epoch copies. -/

namespace DoubleTake

namespace Mapping

def isText (m : Mapping) : Bool := m.readable && !m.writable && m.executable

def isStack (m : Mapping) : Bool := m.file == "[stack]".toList

/-- `file.find(name) != npos`. -/
def names (m : Mapping) (name : String) : Bool := decide (name.toList <:+: m.file)

def isGlobals (m : Mapping) (mainfile : List Char) : Bool :=
  (m.readable && m.writable && !m.executable && m.copy_on_write) &&
    (decide (m.file.length > 0) && (m.file == mainfile || m.file == "[heap]".toList || m.names ".so"))

end Mapping

/-- `_appTextStart` and so on: null pointers to begin with. -/
structure TextRegions where
  appTextStart : Nat
  appTextEnd : Nat
  doubletakeStart : Nat
  doubletakeEnd : Nat
  deriving DecidableEq, Repr

namespace TextRegions

def unset : TextRegions := ⟨0, 0, 0, 0⟩

def isDoubleTakeLibrary (t : TextRegions) (pcaddr : Nat) : Bool :=
  decide (pcaddr ≥ t.doubletakeStart) && decide (pcaddr ≤ t.doubletakeEnd)

def isApplication (t : TextRegions) (pcaddr : Nat) : Bool := decide (pcaddr ≥ t.appTextStart) && decide (pcaddr ≤ t.appTextEnd)

/-- The body of the loop of `getTextRegions`. -/
def add (t : TextRegions) (main_exe : List Char) (m : Mapping) : TextRegions :=
  if m.isText then
    if m.names "libdoubletake" then { t with doubletakeStart := m.base, doubletakeEnd := m.limit }
    else if m.file = main_exe then { t with appTextStart := m.base, appTextEnd := m.limit }
    else t
  else t

end TextRegions

structure RegionInfo where
  start : Nat
  stop : Nat
  deriving DecidableEq, Repr

namespace SelfMap

/-- The bottom and the top; without a stack the process aborts. -/
def getStackInformation (s : SelfMap) : Option (Nat × Nat) :=
  (s.mappings.find? fun e => e.2.isStack).map fun e => (e.2.base, e.2.limit)

def getTextRegions (s : SelfMap) (t : TextRegions) : TextRegions := s.mappings.foldl (fun t e => t.add s.main_exe e.2) t

def getGlobalRegions (s : SelfMap) : List RegionInfo :=
  (s.mappings.filter fun e => e.2.isGlobals s.main_exe && !e.2.names "libdoubletake").map fun e => ⟨e.2.base, e.2.limit⟩

end SelfMap

/-- The size of `_gRegions` and `_maps`. -/
def NUM_GLOBALS : Nat := 128

/-- `_maps` has one mapping for each region. -/
structure XGlobals where
  gRegions : List RegionInfo
  maps : List XMapping

namespace XGlobals

/-- `getGlobalRegions` does not look at the size of the array that it fills, and `xmapping::initialize` takes whole pages only. -/
def initialized (s : SelfMap) : Option XGlobals :=
  let regions := s.getGlobalRegions
  if regions.length ≤ NUM_GLOBALS ∧ ∀ r ∈ regions, (r.stop - r.start) % PageSize = 0 then
    some ⟨regions, regions.map fun r => ⟨r.start, r.stop - r.start, none, fun _ => 0⟩⟩
  else none

def getRegions (g : XGlobals) : Nat := g.gRegions.length

def getGlobalRegion (g : XGlobals) (index : Nat) : Nat × Nat :=
  match g.gRegions[index]? with
  | some r => (r.start, r.stop)
  | none => (0, 0)

end XGlobals

end DoubleTake
