import DoubleTake.Lib.Bytes

/-! Singly linked lists in memory: the first word of an element is the address of the next one, or 0. -/

namespace Mem

/-- The elements of the list that begins at an address. -/
inductive Chain (m : Mem) : Nat → List Nat → Prop where
  | nil : Chain m 0 []
  | cons {p : Nat} {l : List Nat} : p ≠ 0 → Chain m (m.read p 8) l → Chain m p (p :: l)

variable {m m' : Mem} {a p : Nat} {l : List Nat}

theorem Chain.pop (h : Chain m a l) (ha : a ≠ 0) : ∃ rest, l = a :: rest ∧ Chain m (m.read a 8) rest := by
  cases h with
  | nil => exact absurd rfl ha
  | cons _ hrest => exact ⟨_, rfl, hrest⟩

/-- A list depends on the first words of its elements only. -/
theorem Chain.congr (h : Chain m a l) (hm : ∀ p ∈ l, Agree m m' p (p + 8)) : Chain m' a l := by
  induction h with
  | nil => exact .nil
  | @cons p l hp _ ih =>
    refine .cons hp ?_
    rw [← read_congr (hm p List.mem_cons_self)]
    exact ih fun q hq => hm q (List.mem_cons_of_mem _ hq)

/-- An element is put in front of the others. -/
theorem Chain.push (h : Chain m a l) (ha : a < 2 ^ 64) (hp : p ≠ 0) (hl : ∀ q ∈ l, q + 8 ≤ p ∨ p + 8 ≤ q) :
    Chain (m.write p 8 a) p (p :: l) := by
  refine .cons hp ?_
  rw [read_write_of_lt m p (by omega)]
  refine h.congr fun q hq x h₁ h₂ => ?_
  rcases hl q hq with hle | hle
  · exact (write_of_lt (by omega)).symm
  · exact (write_of_ge (by omega)).symm

end Mem
