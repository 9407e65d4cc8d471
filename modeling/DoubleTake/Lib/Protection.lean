import Mathlib.Data.Nat.Notation

/-! Page protection: what `mprotect` changes, and whether a range of bytes may be read or written under it. -/

namespace Protection

/-- What the bytes of a page may be used for. -/
structure Prot where
  read : Bool
  write : Bool
  deriving DecidableEq, Repr

def PROT_NONE : Prot := ⟨false, false⟩
def PROT_READ : Prot := ⟨true, false⟩
def PROT_WRITE : Prot := ⟨false, true⟩
def PROT_READ_WRITE : Prot := ⟨true, true⟩

/-- The protection of each page, by its number. -/
abbrev Pages := Nat → Prot

variable (page : Nat)

/-- `mprotect` on mapped memory: all pages with a byte of the range are changed. An address that is not the beginning of a page
    is refused. -/
def mprotect (pages : Pages) (addr len : Nat) (prot : Prot) : Pages :=
  if addr % page = 0 then fun p => if addr / page ≤ p ∧ p * page < addr + len then prot else pages p
  else pages

/-- All bytes of the range have the protection. -/
def Protected (pages : Pages) (addr len : Nat) (prot : Prot) : Prop := ∀ i < len, pages ((addr + i) / page) = prot

/-- All bytes of the range may be used in the way. -/
def Accessible (right : Prot → Bool) (pages : Pages) (addr len : Nat) : Prop :=
  ∀ i < len, right (pages ((addr + i) / page)) = true

instance (right : Prot → Bool) (pages : Pages) (addr len : Nat) : Decidable (Accessible page right pages addr len) :=
  Nat.decidableBallLT len _

section
variable {page} {pages : Pages} {addr len : Nat} {prot : Prot} {right : Prot → Bool}

theorem protected_mprotect (h : addr % page = 0) :
    Protected page (mprotect page pages addr len prot) addr len prot := by
  intro i hi
  rw [mprotect, if_pos h]
  refine if_pos ⟨Nat.div_le_div_right (Nat.le_add_right _ _), ?_⟩
  have hfloor := Nat.div_mul_le_self (addr + i) page
  omega

theorem mprotect_of_ne (h : addr % page ≠ 0) : mprotect page pages addr len prot = pages := if_neg h

theorem Protected.mono {n : Nat} (h : Protected page pages addr len prot) (hn : n ≤ len) : Protected page pages addr n prot :=
  fun i hi => h i (by omega)

theorem Protected.accessible (h : Protected page pages addr len prot) (hright : right prot = true) :
    Accessible page right pages addr len := fun i hi => by
  rw [h i hi, hright]

/-- Bytes that all have one protection may be used as it says; where there are none, in every way. -/
theorem Protected.accessible_iff (h : Protected page pages addr len prot) :
    Accessible page right pages addr len ↔ len = 0 ∨ right prot = true := by
  constructor
  · intro ha
    rcases Nat.eq_zero_or_pos len with hlen | hlen
    · exact .inl hlen
    · exact .inr (by rw [← h 0 hlen]; exact ha 0 hlen)
  · rintro (rfl | hright)
    · exact fun i hi => (Nat.not_lt_zero i hi).elim
    · exact h.accessible hright

end

end Protection
