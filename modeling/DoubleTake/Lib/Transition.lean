import Mathlib.Logic.Basic

/-! Labelled transition systems: what is reachable, and the rule that carries an invariant from the
    initial states along every step. -/

namespace Transition

/-- A transition system over states `σ` with steps labelled by `ι`. -/
structure System (σ ι : Type) where
  init : σ → Prop
  step : σ → ι → σ → Prop

variable {σ ι : Type}

/-- The states that runs of the system reach. -/
inductive Reachable (S : System σ ι) : σ → Prop where
  | init {s : σ} : S.init s → Reachable S s
  | step {s t : σ} (i : ι) : Reachable S s → S.step s i t → Reachable S t

/-- Runs from `s`: the labels of the steps taken, in order, and the state reached. -/
inductive Steps (S : System σ ι) : σ → List ι → σ → Prop where
  | nil {s : σ} : Steps S s [] s
  | cons {s t u : σ} {i : ι} {is : List ι} : S.step s i t → Steps S t is u → Steps S s (i :: is) u

/-- The system in which a step is taken only where the guard allows it. -/
def System.restrict (S : System σ ι) (guard : σ → ι → Prop) : System σ ι where
  init := S.init
  step s i t := guard s i ∧ S.step s i t

theorem Reachable.invariant {S : System σ ι} {P : σ → Prop} (hinit : ∀ s, S.init s → P s)
    (hstep : ∀ s i t, P s → S.step s i t → P t) {s : σ} (h : Reachable S s) : P s := by
  induction h with
  | init h => exact hinit _ h
  | step i _ hs ih => exact hstep _ i _ ih hs

theorem Reachable.of_restrict {S : System σ ι} {guard : σ → ι → Prop} {s : σ} (h : Reachable (S.restrict guard) s) :
    Reachable S s := by
  induction h with
  | init h => exact .init h
  | step i _ hs ih => exact .step i ih hs.2

/-- A run of a system whose steps a function computes. -/
theorem Reachable.of_foldlM {S : System σ ι} {f : σ → ι → Option σ} {s t : σ} {l : List ι}
    (hf : ∀ s i t, i ∈ l → f s i = some t → S.step s i t) (h : Reachable S s) (hr : l.foldlM f s = some t) :
    Reachable S t := by
  induction l generalizing s with
  | nil =>
    cases hr
    exact h
  | cons i l ih =>
    rw [List.foldlM_cons] at hr
    obtain ⟨u, hu, hr⟩ := Option.bind_eq_some_iff.mp hr
    have hi : S.step s i u := hf s i u (List.mem_cons_self ..) hu
    exact ih (fun s j t hj => hf s j t (List.mem_cons_of_mem _ hj)) (.step i h hi) hr

/-- The same for the steps that a guard allows. -/
theorem Reachable.of_foldlM_restrict {S : System σ ι} {guard : σ → ι → Prop} [∀ s, DecidablePred (guard s)]
    {f : σ → ι → Option σ} {s t : σ} {l : List ι} (hf : ∀ s i t, f s i = some t → S.step s i t)
    (h : Reachable (S.restrict guard) s) (hr : l.foldlM (fun s i => if guard s i then f s i else none) s = some t) :
    Reachable (S.restrict guard) t := by
  refine h.of_foldlM (fun s i t _ hs => ?_) hr
  split at hs
  · rename_i hg
    exact ⟨hg, hf s i t hs⟩
  · cases hs

theorem Steps.of_foldlM {S : System σ ι} {f : σ → ι → Option σ} {s t : σ} {l : List ι}
    (hf : ∀ s i t, f s i = some t → S.step s i t) (hr : l.foldlM f s = some t) : Steps S s l t := by
  induction l generalizing s with
  | nil =>
    cases hr
    exact .nil
  | cons i l ih =>
    rw [List.foldlM_cons] at hr
    obtain ⟨u, hu, hr⟩ := Option.bind_eq_some_iff.mp hr
    exact .cons (hf s i u hu) (ih hr)

theorem Steps.reachable {S : System σ ι} {s t : σ} {is : List ι} (hst : Steps S s is t) (h : Reachable S s) : Reachable S t := by
  induction hst with
  | nil => exact h
  | cons hstep _ ih => exact ih (.step _ h hstep)

theorem Steps.invariant {S : System σ ι} {P : σ → Prop} (hstep : ∀ s i t, P s → S.step s i t → P t)
    {s t : σ} {is : List ι} (hs : Steps S s is t) (h : P s) : P t := by
  induction hs with
  | nil => exact h
  | cons h₁ _ ih => exact ih (hstep _ _ _ h h₁)

/-- What every step carries on, with the steps before it, holds after a run; the latest step comes first. -/
theorem Steps.past {S : System σ ι} {P : List ι → σ → Prop} (hstep : ∀ past s i t, P past s → S.step s i t → P (i :: past) t)
    {s t : σ} {is : List ι} (hs : Steps S s is t) (h : P [] s) : P is.reverse t := by
  suffices hpast : ∀ past, P past s → P (is.reverse ++ past) t by
    rw [← List.append_nil is.reverse]
    exact hpast [] h
  clear h
  induction hs with
  | nil => exact fun past h => h
  | cons h₁ _ ih =>
    intro past h
    rw [List.reverse_cons, List.append_assoc]
    exact ih _ (hstep past _ _ _ h h₁)

end Transition
