import DoubleTake.SentinelMap

/-! The hardware watchpoints that are set before a rollback (`watchpoint.cpp`). The kernel's part is that an enabled
    event traps the writes to the `bp_len` bytes from `bp_addr` on. -/

namespace DoubleTake

/-- `HW_BREAKPOINT_LEN_4`. -/
abbrev HW_BREAKPOINT_LEN_4 : Nat := 4

/-- The fields of a `perf_event_attr` for a write breakpoint. -/
structure PerfEvent where
  bp_addr : Nat
  bp_len : Nat
  disabled : Bool
  deriving DecidableEq, Repr

/-- The byte is watched. -/
def PerfEvent.Covers (e : PerfEvent) (a : Nat) : Prop := e.bp_addr ≤ a ∧ a < e.bp_addr + e.bp_len

/-- `install_watchpoint`: the event is opened, disabled and in no group. Its descriptor is the number of events opened
    before. -/
def install_watchpoint (events : List PerfEvent) (address : Nat) : List PerfEvent × Nat :=
  (events ++ [⟨address, HW_BREAKPOINT_LEN_4, true⟩], events.length)

/-- `enable_watchpoints`: one event, that of the descriptor. -/
def enable_watchpoints (events : List PerfEvent) (fd : Nat) : List PerfEvent :=
  events.modify fd fun e => { e with disabled := false }

/-- `installWatchpoints`. The loop keeps the descriptor of the event that it opened last, which is then enabled. -/
def installWatchpoints (wp : List FaultyObject) : List PerfEvent :=
  if wp.length = 0 then []
  else
    let (events, perffd) := wp.foldl (fun c w => install_watchpoint c.1 w.faultyaddr) ([], 0)
    enable_watchpoints events perffd

end DoubleTake
