import Mathlib.Data.Finite.Defs
import Mathlib.Data.Fintype.EquivFin

/-! Maps on machine words in which the change to a bit depends on the bits on one side of it only. A word can be got back from
    the exclusive or with such a change, so these maps are permutations of the words. -/

namespace Triangular

variable {w : Nat} {f g : BitVec w → BitVec w}

/-- Bit `i` of the result depends on the bits below `i`. -/
def Lower (f : BitVec w → BitVec w) : Prop :=
  ∀ x y i, (∀ j, j < i → x.getLsbD j = y.getLsbD j) → (f x).getLsbD i = (f y).getLsbD i

/-- Bit `i` of the result depends on the bits above `i`. -/
def Upper (f : BitVec w → BitVec w) : Prop :=
  ∀ x y i, (∀ j, i < j → x.getLsbD j = y.getLsbD j) → (f x).getLsbD i = (f y).getLsbD i

theorem Lower.shiftLeft {n : Nat} (hn : 0 < n) : Lower fun x : BitVec w => x <<< n := by
  intro x y i h
  rw [BitVec.getLsbD_shiftLeft, BitVec.getLsbD_shiftLeft]
  by_cases hi : i < n
  · rw [decide_eq_true hi, Bool.not_true, Bool.and_false, Bool.false_and, Bool.false_and]
  · rw [h (i - n) (by omega)]

theorem Upper.shiftRight {n : Nat} (hn : 0 < n) : Upper fun x : BitVec w => x >>> n := by
  intro x y i h
  rw [BitVec.getLsbD_ushiftRight, BitVec.getLsbD_ushiftRight, h (n + i) (by omega)]

theorem Lower.const (c : BitVec w) : Lower fun _ => c := fun _ _ _ _ => rfl

theorem Lower.xor (hf : Lower f) (hg : Lower g) : Lower fun x => f x ^^^ g x := by
  intro x y i h
  rw [BitVec.getLsbD_xor, BitVec.getLsbD_xor, hf x y i h, hg x y i h]

/-- The carry into a bit comes from the bits below. -/
theorem carry_congr {x y x' y' : BitVec w} {i : Nat} (hx : ∀ j, j < i → x.getLsbD j = x'.getLsbD j)
    (hy : ∀ j, j < i → y.getLsbD j = y'.getLsbD j) (c : Bool) : BitVec.carry i x y c = BitVec.carry i x' y' c := by
  induction i with
  | zero => rw [BitVec.carry_zero, BitVec.carry_zero]
  | succ i ih =>
    rw [BitVec.carry_succ, BitVec.carry_succ, hx i i.lt_succ_self, hy i i.lt_succ_self,
      ih (fun j hj => hx j (Nat.lt_succ_of_lt hj)) fun j hj => hy j (Nat.lt_succ_of_lt hj)]

theorem Lower.add (hf : Lower f) (hg : Lower g) : Lower fun x => f x + g x := by
  intro x y i h
  by_cases hi : i < w
  · have hbelow : ∀ j, j < i → ∀ k, k < j → x.getLsbD k = y.getLsbD k := fun j hj k hk => h k (hk.trans hj)
    rw [BitVec.getLsbD_add hi, BitVec.getLsbD_add hi, hf x y i h, hg x y i h,
      carry_congr (fun j hj => hf x y j (hbelow j hj)) (fun j hj => hg x y j (hbelow j hj))]
  · rw [BitVec.getLsbD_of_ge _ _ (Nat.le_of_not_lt hi), BitVec.getLsbD_of_ge _ _ (Nat.le_of_not_lt hi)]

/-- The bits are got back from the lowest on. -/
theorem Lower.injective (hf : Lower f) : Function.Injective fun x => x ^^^ f x := by
  intro x y h
  have hbits : ∀ i, x.getLsbD i = y.getLsbD i := by
    intro i
    induction i using Nat.strong_induction_on with
    | _ i ih =>
      have hi := congrArg (fun v => v.getLsbD i) h
      rwa [BitVec.getLsbD_xor, BitVec.getLsbD_xor, hf x y i ih, Bool.xor_left_inj] at hi
  exact BitVec.eq_of_getLsbD_eq fun i _ => hbits i

/-- The bits are got back from the highest on. -/
theorem Upper.injective (hf : Upper f) : Function.Injective fun x => x ^^^ f x := by
  intro x y h
  have hbits : ∀ n i, w ≤ i + n → x.getLsbD i = y.getLsbD i := by
    intro n
    induction n with
    | zero =>
      intro i hi
      rw [BitVec.getLsbD_of_ge x i hi, BitVec.getLsbD_of_ge y i hi]
    | succ n ih =>
      intro i hi
      have heq := congrArg (fun v => v.getLsbD i) h
      rwa [BitVec.getLsbD_xor, BitVec.getLsbD_xor, hf x y i fun j hj => ih j (by omega), Bool.xor_left_inj] at heq
  exact BitVec.eq_of_getLsbD_eq fun i _ => hbits w i (Nat.le_add_left w i)

/-- There are finitely many words. -/
theorem bijective_of_injective (h : Function.Injective f) : Function.Bijective f := by
  have hfinite : Finite (BitVec w) := Finite.of_injective BitVec.toFin fun x y hxy => BitVec.eq_of_toFin_eq hxy
  exact Finite.injective_iff_bijective.mp h

theorem Lower.bijective (hf : Lower f) : Function.Bijective fun x => x ^^^ f x := bijective_of_injective hf.injective

theorem Upper.bijective (hf : Upper f) : Function.Bijective fun x => x ^^^ f x := bijective_of_injective hf.injective

end Triangular
