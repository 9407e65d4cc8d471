import Mathlib.Logic.Basic
import Mathlib.Data.List.Basic

/-! Reachability by a worklist. An entry of the list leads to a node, or to nothing; a node that is visited puts its own
    entries at the end of the list. -/

namespace Worklist

variable {α β : Type} {target : α → Option β} {entries : β → List α} {roots : List α}

/-- The nodes that the entries lead to, from the roots and from node to node. -/
inductive Reached (target : α → Option β) (entries : β → List α) (roots : List α) : β → Prop where
  | root {a : α} {b : β} : a ∈ roots → target a = some b → Reached target entries roots b
  | next {b c : β} {a : α} : Reached target entries roots b → a ∈ entries b → target a = some c → Reached target entries roots c

/-- An entry that the search may come to. -/
def Entry (target : α → Option β) (entries : β → List α) (roots : List α) (a : α) : Prop :=
  a ∈ roots ∨ ∃ b, Reached target entries roots b ∧ a ∈ entries b

theorem Entry.reached {a : α} {b : β} (h : Entry target entries roots a) (ht : target a = some b) : Reached target entries roots b := by
  rcases h with h | ⟨c, hc, ha⟩
  · exact .root h ht
  · exact .next hc ha ht

/-- What holds while the list is worked off: what has been visited is reached, and an entry of the roots or of a visited node
    is still on the list, or the node that it leads to has been visited. -/
structure Progress (target : α → Option β) (entries : β → List α) (roots : List α) (visited : β → Prop) (todo : List α) : Prop where
  sound : ∀ b, visited b → Reached target entries roots b
  listed : ∀ a ∈ todo, Entry target entries roots a
  ofRoots : ∀ a ∈ roots, a ∈ todo ∨ ∀ b, target a = some b → visited b
  ofVisited : ∀ b, visited b → ∀ a ∈ entries b, a ∈ todo ∨ ∀ c, target a = some c → visited c

variable {visited : β → Prop} {todo : List α} {a : α} {b : β}

theorem Progress.start (h : ∀ b, ¬ visited b) : Progress target entries roots visited roots where
  sound b hb := absurd hb (h b)
  listed _ ha := .inl ha
  ofRoots _ ha := .inl ha
  ofVisited b hb := absurd hb (h b)

/-- An entry that leads to nothing new is taken off the list. -/
theorem Progress.skip (h : Progress target entries roots visited (a :: todo)) (hs : ∀ b, target a = some b → visited b) :
    Progress target entries roots visited todo := by
  have hmove : ∀ a', (a' ∈ a :: todo ∨ ∀ b, target a' = some b → visited b) → a' ∈ todo ∨ ∀ b, target a' = some b → visited b := by
    rintro a' (ha | ha)
    · rcases List.mem_cons.mp ha with rfl | ha
      · exact .inr hs
      · exact .inl ha
    · exact .inr ha
  exact ⟨h.sound, fun a' ha => h.listed a' (List.mem_cons_of_mem _ ha), fun a' ha => hmove a' (h.ofRoots a' ha),
    fun b hb a' ha => hmove a' (h.ofVisited b hb a' ha)⟩

/-- The node of an entry is visited. -/
theorem Progress.visit {visited' : β → Prop} (h : Progress target entries roots visited (a :: todo)) (ht : target a = some b)
    (hv : ∀ c, visited' c ↔ c = b ∨ visited c) : Progress target entries roots visited' (todo ++ entries b) := by
  have hb : Reached target entries roots b := (h.listed a List.mem_cons_self).reached ht
  have hmove : ∀ a', (a' ∈ a :: todo ∨ ∀ c, target a' = some c → visited c) →
      a' ∈ todo ++ entries b ∨ ∀ c, target a' = some c → visited' c := by
    rintro a' (ha | ha)
    · rcases List.mem_cons.mp ha with rfl | ha
      · refine .inr fun c hc => (hv c).mpr (.inl ?_)
        rw [ht, Option.some.injEq] at hc
        exact hc.symm
      · exact .inl (List.mem_append_left _ ha)
    · exact .inr fun c hc => (hv c).mpr (.inr (ha c hc))
  refine ⟨fun c hc => ?_, fun a' ha => ?_, fun a' ha => hmove a' (h.ofRoots a' ha), fun c hc a' ha => ?_⟩
  · rcases (hv c).mp hc with rfl | hc
    · exact hb
    · exact h.sound c hc
  · rcases List.mem_append.mp ha with ha | ha
    · exact h.listed a' (List.mem_cons_of_mem _ ha)
    · exact .inr ⟨b, hb, ha⟩
  · rcases (hv c).mp hc with rfl | hc
    · exact .inl (List.mem_append_right _ ha)
    · exact hmove a' (h.ofVisited c hc a' ha)

/-- When the list is empty exactly the reached nodes have been visited. -/
theorem Progress.done (h : Progress target entries roots visited []) (b : β) : visited b ↔ Reached target entries roots b := by
  refine ⟨h.sound b, fun hb => ?_⟩
  induction hb with
  | root ha ht => exact (h.ofRoots _ ha).resolve_left List.not_mem_nil _ ht
  | next _ ha ht ih => exact (h.ofVisited _ ih _ ha).resolve_left List.not_mem_nil _ ht

/-- A search comes to its end when every round makes a bound smaller, or keeps it and puts nothing on the list. -/
theorem exhaust {σ : Type} {l : σ → List α} {n : σ → Nat} {P : σ → Prop} (hdone : ∀ s, l s = [] → P s)
    (hround : ∀ s a rest, l s = a :: rest → (∀ s', n s' < n s ∨ n s' = n s ∧ l s' = rest → P s') → P s) (s : σ) : P s := by
  generalize hbound : n s = bound
  induction bound using Nat.strongRecOn generalizing s with
  | ind bound ihbound =>
    generalize hlist : l s = todo
    induction todo generalizing s with
    | nil => exact hdone s hlist
    | cons a rest ihtodo =>
      refine hround s a rest hlist fun s' hs' => ?_
      rcases hs' with hlt | ⟨heq, hrest⟩
      · exact ihbound _ (hbound ▸ hlt) s' rfl
      · exact ihtodo s' (heq.trans hbound) hrest

end Worklist
