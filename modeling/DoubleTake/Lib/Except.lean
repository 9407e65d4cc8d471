/-! Sequencing of computations that may fail. -/

namespace Except

variable {ε α β : Type} {e : Except ε α} {f : α → Except ε β}

theorem bind_of_ok {a : α} (h : e = .ok a) : (e >>= f) = f a := by
  rw [h]
  rfl

theorem bind_of_error {x : ε} (h : e = .error x) : (e >>= f) = .error x := by
  rw [h]
  rfl

theorem of_bind_ok {b : β} (h : (e >>= f) = .ok b) : ∃ a, e = .ok a ∧ f a = .ok b := by
  cases e with
  | ok a => exact ⟨a, rfl, h⟩
  | error x => cases h

/-- What follows does not fail in this way. -/
theorem bind_eq_error_iff {x : ε} (h : ∀ a, f a ≠ .error x) : (e >>= f) = .error x ↔ e = .error x := by
  cases e with
  | ok a =>
    rw [bind_of_ok rfl]
    exact iff_of_false (h a) (by rintro ⟨⟩)
  | error y => rw [bind_of_error rfl, Except.error.injEq, Except.error.injEq]

theorem of_toOption {a : α} (h : e.toOption = some a) : e = .ok a := by
  cases e with
  | ok b => exact congrArg _ (Option.some.inj h)
  | error x => cases h

/-- Two computations end alike: in the same error, or in results that are related. -/
inductive Alike {α' : Type} (R : α → α' → Prop) : Except ε α → Except ε α' → Prop where
  | ok {a : α} {a' : α'} : R a a' → Alike R (.ok a) (.ok a')
  | error {x : ε} : Alike R (.error x) (.error x)

section
variable {α' β' : Type} {e' : Except ε α'} {f' : α' → Except ε β'} {R : α → α' → Prop} {S : β → β' → Prop}

theorem Alike.refl (e : Except ε α) : Alike Eq e e := by
  cases e with
  | ok a => exact .ok rfl
  | error x => exact .error

theorem Alike.bind (h : Alike R e e') (hf : ∀ a a', e = .ok a → R a a' → Alike S (f a) (f' a')) :
    Alike S (e >>= f) (e' >>= f') := by
  cases h with
  | ok hR => exact hf _ _ rfl hR
  | error => exact .error

theorem Alike.of_ok {a : α} (h : Alike R e e') (he : e = .ok a) : ∃ a', e' = .ok a' ∧ R a a' := by
  subst he
  cases h with
  | ok hR => exact ⟨_, rfl, hR⟩

theorem Alike.of_ok' {a' : α'} (h : Alike R e e') (he : e' = .ok a') : ∃ a, e = .ok a ∧ R a a' := by
  subst he
  cases h with
  | ok hR => exact ⟨_, rfl, hR⟩

end

end Except
