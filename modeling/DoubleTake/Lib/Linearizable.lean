import Mathlib.Data.List.Basic
import Mathlib.Logic.Function.Basic
import DoubleTake.Lib.Transition

/-! Objects that several threads call at once. A history of calls and returns is linearizable when an object could have shown it
    on which every operation takes effect in one step between its call and its return. Histories are carried over by forward
    simulation. -/

namespace Transition

variable {σ τ ι κ ε : Type} {S : System σ ι} {T : System τ κ}

theorem Steps.append {s t u : σ} {is js : List ι} (h : Steps S s is t) (h' : Steps S t js u) : Steps S s (is ++ js) u := by
  induction h with
  | nil => exact h'
  | cons hstep _ ih => exact .cons hstep (ih h')

/-- What a run from an initial state shows, when only some labels are seen. -/
def Shows (S : System σ ι) (visible : ι → Option ε) (events : List ε) : Prop :=
  ∃ s is t, S.init s ∧ Steps S s is t ∧ is.filterMap visible = events

/-- Every step of `S` is followed by steps of `T` that show the same. -/
structure Simulates (S : System σ ι) (T : System τ κ) (visible : ι → Option ε) (visible' : κ → Option ε)
    (R : σ → τ → Prop) : Prop where
  init : ∀ s, S.init s → ∃ a, T.init a ∧ R s a
  step : ∀ s i t a, R s a → S.step s i t → ∃ is b, Steps T a is b ∧ is.filterMap visible' = (visible i).toList ∧ R t b

variable {visible : ι → Option ε} {visible' : κ → Option ε} {R : σ → τ → Prop}

theorem Simulates.steps (h : Simulates S T visible visible' R) {s t : σ} {is : List ι} (hs : Steps S s is t) {a : τ} (hr : R s a) :
    ∃ js b, Steps T a js b ∧ js.filterMap visible' = is.filterMap visible ∧ R t b := by
  induction hs generalizing a with
  | nil => exact ⟨[], a, .nil, rfl, hr⟩
  | @cons s u t i is hstep _ ih =>
    obtain ⟨js, b, hjs, hvis, hr'⟩ := h.step s i u a hr hstep
    obtain ⟨ks, c, hks, hvis', hr''⟩ := ih hr'
    refine ⟨js ++ ks, c, hjs.append hks, ?_, hr''⟩
    rw [List.filterMap_append, hvis, hvis', List.filterMap_cons]
    cases visible i <;> rfl

theorem Simulates.shows (h : Simulates S T visible visible' R) {events : List ε} (hs : Shows S visible events) :
    Shows T visible' events := by
  obtain ⟨s, is, t, hinit, hsteps, rfl⟩ := hs
  obtain ⟨a, ha, hr⟩ := h.init s hinit
  obtain ⟨js, b, hjs, hvis, -⟩ := h.steps hsteps hr
  exact ⟨a, js, b, ha, hjs, hvis⟩

/-- A property of the states that the relation gives. -/
theorem Simulates.reachable (h : Simulates S T visible visible' R) {s : σ} (hs : Reachable S s) : ∃ a, R s a := by
  induction hs with
  | init hs =>
    obtain ⟨a, -, hr⟩ := h.init _ hs
    exact ⟨a, hr⟩
  | step i _ hstep ih =>
    obtain ⟨a, hr⟩ := ih
    obtain ⟨-, b, -, -, hr'⟩ := h.step _ i _ a hr hstep
    exact ⟨b, hr'⟩

end Transition

namespace Linearizable

open Transition

/-- What the operations do when one comes after the other. -/
structure Spec (σ ω ρ : Type) where
  init : σ
  apply : σ → ω → σ × ρ

inductive Event (ω ρ : Type) where
  | call (t : Nat) (op : ω)
  | ret (t : Nat) (r : ρ)
  deriving DecidableEq, Repr

/-- Where a thread is in its operation. -/
inductive Phase (ω ρ : Type) where
  | idle
  | called (op : ω)
  | done (r : ρ)
  deriving DecidableEq, Repr

/-- The object with the operations of all threads. -/
structure Atomic (σ ω ρ : Type) where
  state : σ
  phase : Nat → Phase ω ρ

inductive Label (ω ρ : Type) where
  | event (e : Event ω ρ)
  | perform (t : Nat)

def Label.visible {ω ρ : Type} : Label ω ρ → Option (Event ω ρ)
  | .event e => some e
  | .perform _ => none

variable {σ ω ρ : Type}

/-- The steps of the object: an operation is called, takes effect, and returns. -/
inductive Step (S : Spec σ ω ρ) : Atomic σ ω ρ → Label ω ρ → Atomic σ ω ρ → Prop where
  | call {a : Atomic σ ω ρ} (t : Nat) (op : ω) :
    a.phase t = .idle → Step S a (.event (.call t op)) ⟨a.state, Function.update a.phase t (.called op)⟩
  | perform {a : Atomic σ ω ρ} (t : Nat) (op : ω) :
    a.phase t = .called op →
      Step S a (.perform t) ⟨(S.apply a.state op).1, Function.update a.phase t (.done (S.apply a.state op).2)⟩
  | ret {a : Atomic σ ω ρ} (t : Nat) (r : ρ) :
    a.phase t = .done r → Step S a (.event (.ret t r)) ⟨a.state, Function.update a.phase t .idle⟩

def atomic (S : Spec σ ω ρ) : System (Atomic σ ω ρ) (Label ω ρ) where
  init a := a = ⟨S.init, fun _ => .idle⟩
  step := Step S

/-- The atomic object can show the history. -/
def IsLinearizable (S : Spec σ ω ρ) (history : List (Event ω ρ)) : Prop := Shows (atomic S) Label.visible history

end Linearizable
