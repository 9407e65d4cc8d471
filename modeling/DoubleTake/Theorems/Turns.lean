import DoubleTake.Sync
import Mathlib.Data.List.Nodup

/-! The turns of the recorded events in the replay: on each list one event has the turn, and the semaphores, the
    pending lists and the operations of the threads say where the turn is. -/

namespace DoubleTake

open Transition

/-- Where the turn of an event is: not given yet, with a thread about to pass it on, on the pending list, in the
    semaphore, taken. -/
inductive Place where
  | idle
  | signalled (t : Nat)
  | pending
  | ready
  | passed
  deriving DecidableEq

/-- On each list the number of the events that got the turn, and where each event's turn is. -/
structure Turns where
  granted : SyncVar → Nat
  place : EventRef → Place

/-- What is recorded is recorded once, in the pool of its thread and on its list. -/
structure Epoch.Listed (E : Epoch) : Prop where
  ref : ∀ l, ∀ e ∈ E.list l, ∃ ev, (E.syncevents e.thread)[e.index]? = some ev ∧ ev.eventlist = l
  listed : ∀ t i ev, (E.syncevents t)[i]? = some ev → ⟨t, i⟩ ∈ E.list ev.eventlist
  nodup : ∀ l, (E.list l).Nodup
  active_nodup : E.active.Nodup

theorem Epoch.Listed.unique {E : Epoch} (h : E.Listed) {l l' : SyncVar} {p p' : Nat} {e : EventRef}
    (he : (E.list l)[p]? = some e) (he' : (E.list l')[p']? = some e) : l = l' ∧ p = p' := by
  obtain ⟨ev, hev, hl⟩ := h.ref l e (List.mem_of_getElem? he)
  obtain ⟨ev', hev', hl'⟩ := h.ref l' e (List.mem_of_getElem? he')
  rw [hev] at hev'
  cases hev'
  obtain rfl : l = l' := hl.symm.trans hl'
  have hp : p < (E.list l).length := (List.getElem?_eq_some_iff.mp he).1
  exact ⟨rfl, (List.getElem?_inj hp (h.nodup l)).mp (he.trans he'.symm)⟩

namespace Turns

variable {E : Epoch} {a : Turns} {e : EventRef} {l : SyncVar} {t : Nat}

def move (a : Turns) (e : EventRef) (x : Place) : Turns := { a with place := Function.update a.place e x }

/-- The next event of the list gets the turn. -/
def grant (a : Turns) (E : Epoch) (l : SyncVar) (x : Place) : Turns where
  granted := Function.update a.granted l (a.granted l + 1)
  place e := if (E.list l)[a.granted l]? = some e then x else a.place e

/-- The thread has taken the turn of the list and not given it back. -/
def Held (a : Turns) (E : Epoch) (t : Nat) (l : SyncVar) : Prop :=
  ∃ p e, (E.list l)[p]? = some e ∧ p + 1 = a.granted l ∧ e.thread = t ∧ a.place e = .passed

/-- Along each list: the turns that are over, the one that is on, and those to come. -/
structure InOrder (a : Turns) (E : Epoch) : Prop where
  before : ∀ l p e, (E.list l)[p]? = some e → p + 1 < a.granted l → a.place e = .passed
  current : ∀ l p e, (E.list l)[p]? = some e → p + 1 = a.granted l → a.place e ≠ .idle
  after : ∀ l p e, (E.list l)[p]? = some e → a.granted l ≤ p → a.place e = .idle
  listed : ∀ e, a.place e ≠ .idle → ∃ l, e ∈ E.list l

@[simp] theorem move_granted (a : Turns) (e : EventRef) (x : Place) : (a.move e x).granted = a.granted := rfl

@[simp] theorem move_place (a : Turns) (e e' : EventRef) (x : Place) :
    (a.move e x).place e' = if e' = e then x else a.place e' := by
  simp [move, Function.update_apply]

theorem InOrder.move {x : Place} (h : a.InOrder E) (hidle : a.place e ≠ .idle) (hpassed : a.place e ≠ .passed)
    (hx : x ≠ .idle) : (a.move e x).InOrder E := by
  constructor
  · intro l p e' he' hp
    have hpass := h.before l p e' he' hp
    rw [move_place, if_neg]
    · exact hpass
    · rintro rfl
      exact hpassed hpass
  · intro l p e' he' hp
    rw [move_place]
    split
    · exact hx
    · exact h.current l p e' he' hp
  · intro l p e' he' hp
    have hid := h.after l p e' he' hp
    rw [move_place, if_neg]
    · exact hid
    · rintro rfl
      exact hidle hid
  · intro e' he'
    by_cases heq : e' = e
    · subst heq
      exact h.listed e' hidle
    · rw [move_place, if_neg heq] at he'
      exact h.listed e' he'

/-- An event on the way to its thread has the turn of its list. -/
theorem InOrder.position {p : Nat} (h : a.InOrder E) (he : (E.list l)[p]? = some e) (hidle : a.place e ≠ .idle)
    (hpassed : a.place e ≠ .passed) : p + 1 = a.granted l := by
  rcases Nat.lt_trichotomy (p + 1) (a.granted l) with hlt | heq | hgt
  · exact absurd (h.before l p e he hlt) hpassed
  · exact heq
  · exact absurd (h.after l p e he (by omega)) hidle

theorem grant_granted (a : Turns) (E : Epoch) (l l' : SyncVar) (x : Place) :
    (a.grant E l x).granted l' = if l' = l then a.granted l + 1 else a.granted l' := by
  simp [grant, Function.update_apply]

theorem InOrder.grant {x : Place} (h : a.InOrder E) (hE : E.Listed) (hx : x ≠ .idle)
    (hcur : ∀ p e, (E.list l)[p]? = some e → p + 1 = a.granted l → a.place e = .passed) : (a.grant E l x).InOrder E := by
  -- The event that gets the turn stands at one place of one list.
  have hnew : ∀ {l' p e}, (E.list l')[p]? = some e → (E.list l)[a.granted l]? = some e → l' = l ∧ p = a.granted l :=
    fun he he' => hE.unique he he'
  constructor
  · intro l' p e he hp
    rw [grant_granted] at hp
    have hold : (E.list l)[a.granted l]? ≠ some e := by
      intro he'
      obtain ⟨rfl, rfl⟩ := hnew he he'
      simp at hp
    simp only [Turns.grant, if_neg hold]
    split at hp
    · rename_i hl
      subst hl
      rcases Nat.lt_or_eq_of_le (Nat.le_of_lt_succ hp) with hlt | heq
      · exact h.before _ p e he hlt
      · exact hcur p e he heq
    · exact h.before l' p e he hp
  · intro l' p e he hp
    rw [grant_granted] at hp
    simp only [Turns.grant]
    split
    · exact hx
    · rename_i hold
      split at hp
      · rename_i hl
        subst hl
        obtain rfl : p = a.granted l' := by omega
        exact absurd he hold
      · exact h.current l' p e he hp
  · intro l' p e he hp
    rw [grant_granted] at hp
    have hold : (E.list l)[a.granted l]? ≠ some e := by
      intro he'
      obtain ⟨rfl, rfl⟩ := hnew he he'
      simp only [ite_true] at hp
      omega
    simp only [Turns.grant, if_neg hold]
    refine h.after l' p e he ?_
    split at hp
    · rename_i hl
      subst hl
      omega
    · exact hp
  · intro e he
    simp only [Turns.grant] at he
    split at he
    · exact ⟨l, List.mem_of_getElem? ‹_›⟩
    · exact h.listed e he

/-- Only the event that gets the turn is elsewhere afterwards. -/
theorem InOrder.place_grant {x y : Place} (h : a.InOrder E) (hx : y ≠ x) (hidle : y ≠ .idle) :
    (a.grant E l x).place e = y ↔ a.place e = y := by
  simp only [Turns.grant]
  split
  · rename_i he
    rw [h.after l _ e he (Nat.le_refl _)]
    exact ⟨fun heq => absurd heq.symm hx, fun heq => absurd heq.symm hidle⟩
  · rfl

/-- What the passages on the list are while an event has its turn. -/
def turn (l : SyncVar) (e : EventRef) : List Passage := [.pass e, .release e.thread l]

/-- The passages on a list that these turns stand for. -/
def shown (a : Turns) (E : Epoch) (l : SyncVar) : List Passage :=
  match a.granted l with
  | 0 => []
  | g + 1 =>
    ((E.list l).take g).flatMap (turn l) ++ ((E.list l)[g]?.toList.filter fun e => a.place e = .passed).map .pass

theorem shown_prefix (a : Turns) (E : Epoch) (l : SyncVar) : a.shown E l <+: (E.list l).flatMap (turn l) := by
  rw [shown]
  split
  · exact List.nil_prefix
  · rename_i g _
    conv_rhs => rw [← List.take_append_drop g (E.list l), List.flatMap_append]
    refine List.prefix_append_right_inj _ |>.mpr ?_
    cases he : (E.list l)[g]? with
    | none => exact List.nil_prefix
    | some e =>
      obtain ⟨hg, rfl⟩ := List.getElem?_eq_some_iff.mp he
      rw [List.drop_eq_getElem_cons hg, List.flatMap_cons]
      by_cases hpassed : a.place (E.list l)[g] = .passed
      · simp [turn, hpassed]
      · simp [hpassed]

theorem mem_shown (h : a.InOrder E) (he : e ∈ E.list l) : .pass e ∈ a.shown E l ↔ a.place e = .passed := by
  obtain ⟨p, he⟩ := List.getElem?_of_mem he
  rw [shown]
  split
  · rename_i hg
    simp [h.after l p e he (by omega)]
  · rename_i g hg
    simp only [List.mem_append, List.mem_flatMap, List.mem_map, List.mem_filter, Option.mem_toList, turn]
    constructor
    · rintro (⟨e', he', hmem⟩ | ⟨e', ⟨-, hpassed⟩, heq⟩)
      · have heq : e = e' := by simpa using hmem
        subst heq
        obtain ⟨p', hp'⟩ := List.getElem?_of_mem he'
        rw [List.getElem?_take] at hp'
        split at hp'
        · exact h.before l p' e hp' (by omega)
        · cases hp'
      · have heq : e' = e := by simpa using heq
        subst heq
        simpa using hpassed
    · intro hpassed
      have hp : p ≤ g := by
        by_contra hlt
        rw [h.after l p e he (by omega)] at hpassed
        cases hpassed
      rcases Nat.lt_or_eq_of_le hp with hlt | rfl
      · refine .inl ⟨e, List.mem_of_getElem? (i := p) ?_, by simp⟩
        rw [List.getElem?_take, if_pos hlt]
        exact he
      · exact .inr ⟨e, ⟨he, by simpa using hpassed⟩, rfl⟩

theorem shown_congr {a' : Turns} (hg : a'.granted l = a.granted l)
    (hp : ∀ e ∈ E.list l, a'.place e = .passed ↔ a.place e = .passed) : a'.shown E l = a.shown E l := by
  rw [shown, shown, hg]
  split
  · rfl
  · congr 2
    refine List.filter_congr fun e he => ?_
    have hmem : e ∈ E.list l := List.mem_of_getElem? (Option.mem_toList.mp he)
    simp [hp e hmem]

/-- The event of the turn passes. -/
theorem shown_pass {p : Nat} (he : (E.list l)[p]? = some e) (hp : p + 1 = a.granted l)
    (hpassed : a.place e ≠ .passed) : (a.move e .passed).shown E l = a.shown E l ++ [.pass e] := by
  simp [shown, ← hp, he, hpassed]

/-- The event of the turn has passed and gives the turn to the next one. -/
theorem shown_grant {p : Nat} {x : Place} (he : (E.list l)[p]? = some e) (hp : p + 1 = a.granted l)
    (hpassed : a.place e = .passed) (hx : x ≠ .passed) :
    (a.grant E l x).shown E l = a.shown E l ++ [.release e.thread l] := by
  obtain ⟨hlt, rfl⟩ := List.getElem?_eq_some_iff.mp he
  have hnone : ((E.list l)[p + 1]?.toList.filter fun e => (a.grant E l x).place e = .passed) = [] := by
    refine List.filter_eq_nil_iff.mpr fun e' he' => ?_
    have he' := Option.mem_toList.mp he'
    simp [grant, ← hp, Option.mem_def.mp he', hx]
  have htake : (E.list l).take (p + 1) = (E.list l).take p ++ [(E.list l)[p]] := by
    rw [List.take_add_one, he, Option.toList_some]
  have hfilter : ([(E.list l)[p]].filter fun e => a.place e = .passed) = [(E.list l)[p]] := by simp [hpassed]
  simp only [shown, grant_granted, ← hp, if_true, hnone, he, Option.toList_some, hfilter]
  rw [htake, List.flatMap_append]
  simp [turn]

/-- The turns differ at most in where they are on their way. -/
structure Same (a a' : Turns) : Prop where
  granted : a'.granted = a.granted
  idle : ∀ e, a'.place e = .idle ↔ a.place e = .idle
  passed : ∀ e, a'.place e = .passed ↔ a.place e = .passed

theorem Same.refl (a : Turns) : Same a a := ⟨rfl, fun _ => Iff.rfl, fun _ => Iff.rfl⟩

theorem Same.move {x : Place} (hidle : a.place e ≠ .idle) (hpassed : a.place e ≠ .passed) (hx : x ≠ .idle)
    (hx' : x ≠ .passed) : Same a (a.move e x) := by
  refine ⟨rfl, fun e' => ?_, fun e' => ?_⟩
  · by_cases heq : e' = e <;> simp [heq, hidle, hx]
  · by_cases heq : e' = e <;> simp [heq, hpassed, hx']

section
variable {a' : Turns}

theorem Same.inOrder (h : Same a a') (ho : a.InOrder E) : a'.InOrder E := by
  constructor
  · intro l p e he hp
    rw [h.passed]
    exact ho.before l p e he (h.granted ▸ hp)
  · intro l p e he hp
    rw [Ne, h.idle]
    exact ho.current l p e he (h.granted ▸ hp)
  · intro l p e he hp
    rw [h.idle]
    exact ho.after l p e he (h.granted ▸ hp)
  · intro e he
    rw [Ne, h.idle] at he
    exact ho.listed e he

theorem Same.held (h : Same a a') : a'.Held E t l ↔ a.Held E t l := by simp only [Held, h.granted, h.passed]

theorem Same.shown (h : Same a a') : a'.shown E l = a.shown E l :=
  shown_congr (by rw [h.granted]) fun e _ => h.passed e

end

theorem held_pass {l' : SyncVar} {p : Nat} (hE : E.Listed) (he : (E.list l)[p]? = some e) (hp : p + 1 = a.granted l) :
    (a.move e .passed).Held E t l' ↔ (e.thread = t ∧ l' = l) ∨ a.Held E t l' := by
  constructor
  · rintro ⟨p', e', he', hp', ht, hpass⟩
    by_cases heq : e' = e
    · subst heq
      exact .inl ⟨ht, (hE.unique he' he).1⟩
    · rw [move_place, if_neg heq] at hpass
      exact .inr ⟨p', e', he', hp', ht, hpass⟩
  · rintro (⟨ht, rfl⟩ | ⟨p', e', he', hp', ht, hpass⟩)
    · exact ⟨p, e, he, hp, ht, by simp⟩
    · refine ⟨p', e', he', hp', ht, ?_⟩
      rw [move_place]
      split
      · rfl
      · exact hpass

theorem held_grant {l' : SyncVar} {x : Place} (hE : E.Listed) (hx : x ≠ .passed) :
    (a.grant E l x).Held E t l' ↔ l' ≠ l ∧ a.Held E t l' := by
  constructor
  · rintro ⟨p, e, he, hp, ht, hpass⟩
    have hnew : (E.list l)[a.granted l]? ≠ some e := by
      intro he'
      simp [grant, he', hx] at hpass
    have hl : l' ≠ l := by
      rintro rfl
      rw [grant_granted, if_pos rfl] at hp
      obtain rfl : p = a.granted l' := by omega
      exact hnew he
    simp only [grant, if_neg hnew] at hpass
    rw [grant_granted, if_neg hl] at hp
    exact ⟨hl, p, e, he, hp, ht, hpass⟩
  · rintro ⟨hl, p, e, he, hp, ht, hpass⟩
    refine ⟨p, e, he, by rw [grant_granted, if_neg hl, hp], ht, ?_⟩
    have hnew : (E.list l)[a.granted l]? ≠ some e := by
      intro he'
      exact hl (hE.unique he he').1
    simp only [grant, if_neg hnew, hpass]

/-- One thread holds the turn of a list. -/
theorem Held.unique {t' : Nat} (h : a.Held E t l) (h' : a.Held E t' l) : t = t' := by
  obtain ⟨p, e, he, hp, rfl, -⟩ := h
  obtain ⟨p', e', he', hp', rfl, -⟩ := h'
  obtain rfl : p = p' := by omega
  rw [he] at he'
  cases he'
  rfl

end Turns

end DoubleTake
