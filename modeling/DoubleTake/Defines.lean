import Mathlib.Algebra.Group.Int.Defs
import Mathlib.Algebra.Group.Nat.Defs

/-! The constants of `xdefines.hh`, for the 64-bit build. -/

namespace DoubleTake

abbrev USER_HEAP_SIZE : Nat := 1048576 * 8192
abbrev USER_HEAP_BASE : Nat := 0x100000000

abbrev QUARANTINE_BUF_SIZE : Nat := 1024
abbrev QUARANTINE_TOTAL_SIZE : Nat := 1048576 * 16
abbrev USER_HEAP_CHUNK : Nat := 1048576 * 4

abbrev MAX_WATCHPOINTS : Nat := 4
abbrev PageSize : Nat := 4096

abbrev WORD_SIZE : Nat := 8
abbrev SENTINEL_SIZE : Nat := WORD_SIZE
def MAGIC_BYTE_NOT_ALIGNED : UInt8 := 0x7E
abbrev FREE_OBJECT_CANARY_WORDS : Nat := 16
abbrev FREE_OBJECT_CANARY_SIZE : Nat := 16 * WORD_SIZE

def SENTINEL_WORD : Nat := 0xCAFEBABECAFEBABE
def MEMALIGN_SENTINEL_WORD : Nat := 0xDADEBABEDADEBABE

/-- What a signed number of 32 bits keeps of a number. -/
def toInt32 (x : Int) : Int := x.bmod (2 ^ 32)

theorem toInt32_of_lt {x : Int} (h₁ : -2 ^ 31 ≤ x) (h₂ : x < 2 ^ 31) : toInt32 x = x := by
  rw [toInt32, Int.bmod_def]
  omega

theorem toInt32_add_toInt32 (x y : Int) : toInt32 (x + toInt32 y) = toInt32 (x + y) := Int.add_bmod_bmod

/-- A positive bound is exceeded by numbers whose low 32 bits exceed it and do not stand for a negative number. -/
theorem lt_toInt32_iff {b x : Int} (hb : 0 ≤ b) : b < toInt32 x ↔ b < x % 2 ^ 32 ∧ x % 2 ^ 32 < 2 ^ 31 := by
  rw [toInt32, Int.bmod_def]
  split <;> omega

/-- What a faulty object is reported for. -/
inductive FaultyObjectType where
  | overflow
  | useAfterFree
  deriving DecidableEq, Repr

end DoubleTake
