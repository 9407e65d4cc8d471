import Mathlib.Data.List.Range
import Mathlib.Logic.Function.Basic

/-! A ring buffer of `n` slots as a list: the slots from one index up to another, around the end. -/

namespace Ring

variable {α : Type}

/-- The slots from `lo` up to `hi`, without `hi`. -/
def view (slots : Nat → α) (n lo hi : Nat) : List α :=
  (List.range ((hi + n - lo) % n)).map fun i => slots ((lo + i) % n)

section
variable {slots : Nat → α} {n lo hi : Nat}

/-- A remainder of what is less than twice the divisor. -/
theorem mod_of_lt_two_mul {a n : Nat} (h : a < n + n) : a % n = if a < n then a else a - n := by
  by_cases ha : a < n
  · rw [if_pos ha, Nat.mod_eq_of_lt ha]
  · rw [if_neg ha, Nat.mod_eq_sub_mod (by omega), Nat.mod_eq_of_lt (by omega)]

theorem gap_eq (hlo : lo < n) (hhi : hi < n) : (hi + n - lo) % n = if lo ≤ hi then hi - lo else hi + n - lo := by
  rw [mod_of_lt_two_mul (by omega)]
  split <;> split <;> omega

@[simp] theorem length_view : (view slots n lo hi).length = (hi + n - lo) % n := by simp [view]

theorem view_self : view slots n lo lo = [] := by
  simp [view]

/-- The first slot comes off when the lower index moves up. -/
theorem view_cons (hlo : lo < n) (hhi : hi < n) (hne : lo ≠ hi) :
    view slots n lo hi = slots lo :: view slots n ((lo + 1) % n) hi := by
  have hnext : (lo + 1) % n = if lo + 1 < n then lo + 1 else lo + 1 - n := mod_of_lt_two_mul (by omega)
  have hlt : (lo + 1) % n < n := Nat.mod_lt _ (by omega)
  have hlen : (hi + n - lo) % n = (hi + n - (lo + 1) % n) % n + 1 := by
    rw [gap_eq hlo hhi, gap_eq hlt hhi, hnext]
    split <;> split <;> split <;> omega
  rw [view, view, hlen, List.range_succ_eq_map, List.map_cons, List.map_map]
  congr 1
  · rw [Nat.add_zero, Nat.mod_eq_of_lt hlo]
  · refine List.map_congr_left fun i hi' => ?_
    rw [Function.comp_apply, Nat.mod_add_mod, show lo + i.succ = lo + 1 + i by omega]

/-- A slot is added at the end when the upper index moves up and does not reach the lower one. -/
theorem view_concat (hlo : lo < n) (hhi : hi < n) (hne : (hi + 1) % n ≠ lo) :
    view slots n lo ((hi + 1) % n) = view slots n lo hi ++ [slots hi] := by
  have hnext : (hi + 1) % n = if hi + 1 < n then hi + 1 else hi + 1 - n := mod_of_lt_two_mul (by omega)
  have hlt : (hi + 1) % n < n := Nat.mod_lt _ (by omega)
  have hlen : ((hi + 1) % n + n - lo) % n = (hi + n - lo) % n + 1 := by
    rw [gap_eq hlo hlt, gap_eq hlo hhi]
    rw [hnext] at hne ⊢
    split at hne <;> split <;> split <;> split <;> omega
  have hlast : (lo + (hi + n - lo) % n) % n = hi := by
    rw [gap_eq hlo hhi]
    split
    · rw [show lo + (hi - lo) = hi by omega, Nat.mod_eq_of_lt hhi]
    · rw [show lo + (hi + n - lo) = hi + n by omega, Nat.add_mod_right, Nat.mod_eq_of_lt hhi]
  rw [view, view, hlen, List.range_succ, List.map_append, List.map_cons, List.map_nil, hlast]

/-- The slot at the upper index is not among them. -/
theorem view_update (hlo : lo < n) (hhi : hi < n) (v : α) :
    view (Function.update slots hi v) n lo hi = view slots n lo hi := by
  refine List.map_congr_left fun i hi' => ?_
  rw [List.mem_range, gap_eq hlo hhi] at hi'
  refine Function.update_of_ne ?_ _ _
  rw [mod_of_lt_two_mul (by split at hi' <;> omega)]
  split at hi' <;> split <;> omega

end

end Ring
