import Mathlib.Data.Nat.Find
import Mathlib.Data.Nat.ModEq
import Mathlib.Data.List.Basic

/-! Single bits of a 64-bit word: the mask test, the first and the last set bit, and the search for the
    last index below a bound that satisfies a predicate. -/

namespace Bits

/-- `__builtin_ffsl`: one more than the index of the least significant set bit, 0 when there is none. -/
def ffsl (w : BitVec 64) : Nat :=
  match (List.range 64).find? fun i => w.getLsbD i with
  | some i => i + 1
  | none => 0

/-- `__builtin_clzl`: the number of zero bits above the most significant set one. -/
def clzl (w : BitVec 64) : Nat :=
  match (List.range 64).find? fun i => w.getLsbD (63 - i) with
  | some i => i
  | none => 64

/-- The greatest index below `n` at which `p` holds. -/
def lastSet (p : Nat → Bool) : Nat → Option Nat
  | 0 => none
  | n + 1 => if p n then some n else lastSet p n

theorem and_twoPow_ne_zero {w : BitVec 64} {i : Nat} (hi : i < 64) :
    w &&& BitVec.twoPow 64 i ≠ 0#64 ↔ w.getLsbD i = true := by
  rw [BitVec.and_twoPow]
  cases hw : w.getLsbD i
  · simp
  · have : BitVec.twoPow 64 i ≠ 0#64 := by
      intro h
      have := congrArg (fun x => x.getLsbD i) h
      simp [hi] at this
    simp [this]

theorem ne_zero_iff {w : BitVec 64} : w ≠ 0#64 ↔ ∃ i < 64, w.getLsbD i = true := by
  constructor
  · intro h
    by_contra hno
    push Not at hno
    apply h
    apply BitVec.eq_of_getLsbD_eq
    intro i hi
    have := hno i hi
    simpa using this
  · rintro ⟨i, _, hw⟩ rfl
    simp at hw

/-- The least significant set bit of a nonzero word. -/
theorem ffsl_spec {w : BitVec 64} (h : w ≠ 0#64) :
    ∃ l < 64, ffsl w = l + 1 ∧ w.getLsbD l = true ∧ ∀ j < l, w.getLsbD j = false := by
  obtain ⟨i, hi, hw⟩ := ne_zero_iff.mp h
  cases hf : (List.range 64).find? fun i => w.getLsbD i with
  | none =>
    have := List.find?_eq_none.mp hf i (List.mem_range.mpr hi)
    exact absurd hw this
  | some l =>
    obtain ⟨hl, hlt, hmin⟩ := List.find?_range_eq_some.mp hf
    refine ⟨l, List.mem_range.mp hlt, by simp [ffsl, hf], hl, fun j hj => ?_⟩
    simpa using hmin j hj

/-- The most significant set bit of a nonzero word. -/
theorem clzl_spec {w : BitVec 64} (h : w ≠ 0#64) :
    ∃ m < 64, clzl w = 63 - m ∧ w.getLsbD m = true ∧ ∀ j, m < j → w.getLsbD j = false := by
  obtain ⟨i, hi, hw⟩ := ne_zero_iff.mp h
  cases hf : (List.range 64).find? fun i => w.getLsbD (63 - i) with
  | none =>
    have := List.find?_eq_none.mp hf (63 - i) (List.mem_range.mpr (by omega))
    rw [show 63 - (63 - i) = i by omega] at this
    exact absurd hw this
  | some l =>
    obtain ⟨hl, hlt, hmin⟩ := List.find?_range_eq_some.mp hf
    have hl64 := List.mem_range.mp hlt
    refine ⟨63 - l, by omega, ?_, hl, fun j hj => ?_⟩
    · simp only [clzl, hf]
      omega
    · by_cases hj64 : j < 64
      · have := hmin (63 - j) (by omega)
        rw [show 63 - (63 - j) = j by omega] at this
        simpa using this
      · exact BitVec.getLsbD_of_ge w j (by omega)

/-- The bits of a word outside and inside of a mask. -/
theorem and_not_add_and (x m : BitVec 64) : (x &&& ~~~ m).toNat + (x &&& m).toNat = x.toNat := by
  have hdisj : (x &&& ~~~ m) &&& (x &&& m) = 0#64 := by
    ext i hi
    simp
    grind
  have hor : (x &&& ~~~ m) ||| (x &&& m) = x := by
    ext i hi
    simp
    grind
  rw [← BitVec.toNat_add_of_and_eq_zero hdisj, BitVec.add_eq_or_of_and_eq_zero _ _ hdisj, hor]

/-- A mask that has the lowest bits clears them. -/
theorem and_not_mod_two_pow {x m : BitVec 64} {n : Nat} (hm : m.toNat % 2 ^ n = 2 ^ n - 1) : (x &&& ~~~ m).toNat % 2 ^ n = 0 := by
  have hsum := and_not_add_and x m
  have hand : (x &&& m).toNat % 2 ^ n = x.toNat % 2 ^ n := by
    rw [BitVec.toNat_and, Nat.and_mod_two_pow, hm, Nat.and_two_pow_sub_one_eq_mod, Nat.mod_mod]
  have hmod : (x &&& ~~~ m).toNat + (x &&& m).toNat ≡ 0 + (x &&& m).toNat [MOD 2 ^ n] := by
    rw [Nat.ModEq, hsum, Nat.zero_add, hand]
  rw [Nat.ModEq.add_right_cancel' _ hmod, Nat.zero_mod]

section
variable {p : Nat → Bool} {n j : Nat}

theorem lastSet_eq_some : lastSet p n = some j ↔ j < n ∧ p j = true ∧ ∀ k, j < k → k < n → p k = false := by
  induction n with
  | zero => simp [lastSet]
  | succ n ih =>
    cases hp : p n
    · simp only [lastSet, hp, Bool.false_eq_true, if_false, ih]
      constructor
      · rintro ⟨h₁, h₂, h₃⟩
        refine ⟨by omega, h₂, fun k hk hkn => ?_⟩
        by_cases hkn' : k = n
        · exact hkn' ▸ hp
        · exact h₃ k hk (by omega)
      · rintro ⟨h₁, h₂, h₃⟩
        have : j ≠ n := fun h => by rw [h, hp] at h₂; cases h₂
        exact ⟨by omega, h₂, fun k hk hkn => h₃ k hk (by omega)⟩
    · simp only [lastSet, hp, if_true, Option.some.injEq]
      constructor
      · rintro rfl
        exact ⟨by omega, hp, fun k h₁ h₂ => by omega⟩
      · rintro ⟨h₁, h₂, h₃⟩
        by_contra hne
        have := h₃ n (by omega) (by omega)
        rw [hp] at this
        cases this

/-- Below a range without a set bit. -/
theorem lastSet_of_gap (hj : j ≤ n) (hgap : ∀ k, j ≤ k → k < n → p k = false) : lastSet p n = lastSet p j := by
  induction n, hj using Nat.le_induction with
  | base => rfl
  | succ n hle ih =>
    rw [lastSet, if_neg (by simp [hgap n hle (by omega)])]
    exact ih fun k h₁ h₂ => hgap k h₁ (by omega)

theorem lastSet_eq_none : lastSet p n = none ↔ ∀ k < n, p k = false := by
  induction n with
  | zero => simp [lastSet]
  | succ n ih =>
    cases hp : p n
    · simp only [lastSet, hp, Bool.false_eq_true, if_false, ih]
      constructor
      · intro h k hk
        by_cases hkn : k = n
        · exact hkn ▸ hp
        · exact h k (by omega)
      · exact fun h k hk => h k (by omega)
    · simp only [lastSet, hp, if_true, reduceCtorEq, false_iff]
      intro h
      have := h n (by omega)
      rw [hp] at this
      cases this

end

end Bits
