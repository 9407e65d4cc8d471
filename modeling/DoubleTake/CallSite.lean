import Mathlib.Logic.Function.Basic
import DoubleTake.Defines

/-! Call sites (`callsite.hh`), and what the trap handler of `watchpoint.cpp` does with them. -/

namespace DoubleTake

abbrev CALLSITE_MAXIMUM_LENGTH : Nat := 10

/-- The frames from `depth` on are what earlier call stacks have left. -/
structure CallSite where
  depth : Nat
  callsite : Nat → Nat

namespace CallSite

/-- The constructor. -/
def initial : CallSite := ⟨0, fun _ => 0⟩

/-- The loop of `save` from index `i` on. -/
def saveLoop (s : CallSite) (i : Nat) : List Nat → CallSite
  | [] => s
  | a :: addr => saveLoop { s with callsite := Function.update s.callsite i a } (i + 1) addr

/-- A call stack is given as the list of its addresses; its length is `depth`. -/
def save (s : CallSite) (addr : List Nat) : CallSite := saveLoop { s with depth := addr.length } 0 addr

/-- The loop of `saveAndCheck` from index `i` on. -/
def saveAndCheckLoop (isSame : Bool) (s : CallSite) (i : Nat) : List Nat → Bool × CallSite
  | [] => (isSame, s)
  | a :: addr =>
    if s.callsite i ≠ a then saveAndCheckLoop false { s with callsite := Function.update s.callsite i a } (i + 1) addr
    else saveAndCheckLoop isSame s (i + 1) addr

def saveAndCheck (s : CallSite) (addr : List Nat) : Bool × CallSite :=
  saveAndCheckLoop true { s with depth := addr.length } 0 addr

end CallSite

namespace Watchpoint

/-- What the handler finds at a trap: the watchpoint of `findFaultyObject`, what `isDoubleTakeLibrary` and `getFaultType` answer,
    and the call stack of `getCallStack`. A watchpoint that is only watched has no fault type to be asked for. -/
structure Trap where
  object : Option Nat
  inLibrary : Bool
  watchOnly : Bool
  faultType : Option FaultyObjectType
  callStack : List Nat
  deriving DecidableEq, Repr

/-- What the handler prints: that there is no faulty object, that a watched address is accessed, or a fault. -/
inductive Report where
  | notFound
  | watched (object : Nat)
  | fault (object : Nat) (faultType : FaultyObjectType) (callStack : List Nat)
  deriving DecidableEq, Repr

/-- `trapHandler`, on the call sites of the watchpoints. -/
def trapHandler (faultySite : Nat → CallSite) (t : Trap) : Option Report × (Nat → CallSite) :=
  match t.object with
  | none => (some .notFound, faultySite)
  | some object =>
    if t.inLibrary then (none, faultySite)
    else if t.watchOnly then (some (.watched object), faultySite)
    else
      match t.faultType with
      | none => (none, faultySite)
      | some faultType =>
        let (isSame, site) := (faultySite object).saveAndCheck t.callStack
        let faultySite := Function.update faultySite object site
        if isSame then (none, faultySite) else (some (.fault object faultType t.callStack), faultySite)

/-- The reports of a run over traps, and the call sites after it; traps and reports are listed with the latest first. -/
def handle : List Trap → List Report × (Nat → CallSite)
  | [] => ([], fun _ => .initial)
  | t :: past =>
    let (reports, faultySite) := handle past
    let (report, faultySite) := trapHandler faultySite t
    (report.toList ++ reports, faultySite)

end Watchpoint

end DoubleTake
