import Mathlib.Logic.Function.Basic
import Mathlib.Order.Basic
import Mathlib.Order.Nat

/-! Ranges of addresses that do not overlap, by what has them: a range above all others is added, or a range is cut in two. -/

namespace Extents

variable {τ : Type} {F : τ → Option (Nat × Nat)} {t u : τ} {a b c d lo hi : Nat}

/-- Each range lies between the bounds, and no two of them overlap. -/
structure Apart (F : τ → Option (Nat × Nat)) (lo hi : Nat) : Prop where
  within : ∀ {t a b}, F t = some (a, b) → lo ≤ a ∧ a ≤ b ∧ b ≤ hi
  apart : ∀ {t u a b c d}, t ≠ u → F t = some (a, b) → F u = some (c, d) → b ≤ c ∨ d ≤ a

theorem Apart.mono (h : Apart F lo hi) {hi' : Nat} (hhi : hi ≤ hi') : Apart F lo hi' where
  within ht := ⟨(h.within ht).1, (h.within ht).2.1, (h.within ht).2.2.trans hhi⟩
  apart := h.apart

/-- One range is replaced, by one that is apart from the others. -/
theorem Apart.update [DecidableEq τ] (h : Apart F lo hi) {hi' : Nat} (hhi : hi ≤ hi') (hin : lo ≤ a ∧ a ≤ b ∧ b ≤ hi')
    (hnew : ∀ {u c d}, u ≠ t → F u = some (c, d) → b ≤ c ∨ d ≤ a) : Apart (Function.update F t (some (a, b))) lo hi' where
  within {v x y} hv := by
    by_cases hvt : v = t
    · rw [hvt, Function.update_self] at hv
      cases hv
      exact hin
    · rw [Function.update_of_ne hvt] at hv
      obtain ⟨h₁, h₂, h₃⟩ := h.within hv
      exact ⟨h₁, h₂, h₃.trans hhi⟩
  apart {v w x y z q} hne hv hw := by
    by_cases hvt : v = t
    · rw [hvt, Function.update_self] at hv
      cases hv
      rw [Function.update_of_ne (fun hwt => hne (hvt.trans hwt.symm))] at hw
      exact hnew (fun hwt => hne (hvt.trans hwt.symm)) hw
    · rw [Function.update_of_ne hvt] at hv
      by_cases hwt : w = t
      · rw [hwt, Function.update_self] at hw
        cases hw
        exact (hnew hvt hv).symm
      · rw [Function.update_of_ne hwt] at hw
        exact h.apart hne hv hw

/-- A range above all others. -/
theorem Apart.push [DecidableEq τ] (h : Apart F lo hi) (hlo : lo ≤ a) (ha : hi ≤ a) (hab : a ≤ b) :
    Apart (Function.update F t (some (a, b))) lo b :=
  h.update (ha.trans hab) ⟨hlo, hab, le_refl b⟩ fun _ hu => .inr ((h.within hu).2.2.trans ha)

/-- The front of the range of `t` goes to `u`, which has had none. -/
theorem Apart.cut [DecidableEq τ] (h : Apart F lo hi) (ht : F t = some (a, b)) (hu : F u = none) (hac : a ≤ c) (hcb : c ≤ b) :
    Apart (Function.update (Function.update F t (some (c, b))) u (some (a, c))) lo hi := by
  obtain ⟨hlo, -, hhi⟩ := h.within ht
  have hne : u ≠ t := by
    rintro rfl
    rw [hu] at ht
    cases ht
  have hrest : Apart (Function.update F t (some (c, b))) lo hi := by
    refine h.update (le_refl hi) ⟨hlo.trans hac, hcb, hhi⟩ fun hvt hv => ?_
    rcases h.apart hvt hv ht with hle | hle
    · exact .inr (hle.trans hac)
    · exact .inl hle
  refine hrest.update (le_refl hi) ⟨hlo, hac, hcb.trans hhi⟩ fun {v x y} hvu hv => ?_
  by_cases hvt : v = t
  · rw [hvt, Function.update_self] at hv
    cases hv
    exact .inl (le_refl c)
  · rw [Function.update_of_ne hvt] at hv
    rcases h.apart hvt hv ht with hle | hle
    · exact .inr hle
    · exact .inl (hcb.trans hle)

end Extents
