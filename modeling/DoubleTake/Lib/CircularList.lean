import Mathlib.Data.List.Nodup
import Mathlib.Logic.Function.Basic

/-! Circular doubly linked lists, as pointers between nodes: a list is a head and the nodes after it, up to the head
    again. -/

namespace CircularList

/-- The two pointers of every node. -/
structure Links (α : Type) where
  next : α → α
  prev : α → α

variable {α : Type}

namespace Links

/-- `a` and `b` are neighbours. -/
def Pair (L : Links α) (a b : α) : Prop := L.next a = b ∧ L.prev b = a

/-- From `a` over the nodes of the list to `b`. -/
def Seg (L : Links α) : α → List α → α → Prop
  | a, [], b => L.Pair a b
  | a, x :: xs, b => L.Pair a x ∧ L.Seg x xs b

/-- The nodes of a list with its head. -/
structure Ring (L : Links α) (head : α) (xs : List α) : Prop where
  nodup : (head :: xs).Nodup
  seg : L.Seg head xs head

variable [DecidableEq α]

def nodeInit (L : Links α) (node : α) : Links α where
  next := Function.update L.next node node
  prev := Function.update L.prev node node

def link (L : Links α) (p n : α) : Links α where
  next := Function.update L.next p n
  prev := Function.update L.prev n p

def insertBetween (L : Links α) (node prev next : α) : Links α where
  next := Function.update (Function.update L.next node next) prev node
  prev := Function.update (Function.update L.prev node prev) next node

def insertTail (L : Links α) (node head : α) : Links α := L.insertBetween node (L.prev head) head

def removeNode (L : Links α) (node : α) : Links α := (L.link (L.prev node) (L.next node)).nodeInit node

end Links

variable {L L' : Links α} {a b x p n head node : α} {xs ys : List α}

theorem seg_append : L.Seg a (xs ++ x :: ys) b ↔ L.Seg a xs x ∧ L.Seg x ys b := by
  induction xs generalizing a with
  | nil => exact Iff.rfl
  | cons y xs ih =>
    show L.Pair a y ∧ L.Seg y (xs ++ x :: ys) b ↔ (L.Pair a y ∧ L.Seg y xs x) ∧ L.Seg x ys b
    rw [ih, and_assoc]

theorem Links.Seg.frame (h : L.Seg a xs b) (hnext : ∀ u ∈ a :: xs, L'.next u = L.next u)
    (hprev : ∀ u ∈ xs ++ [b], L'.prev u = L.prev u) : L'.Seg a xs b := by
  induction xs generalizing a with
  | nil =>
    obtain ⟨h₁, h₂⟩ := h
    exact ⟨(hnext a List.mem_cons_self).trans h₁, (hprev b (List.mem_singleton_self b)).trans h₂⟩
  | cons y xs ih =>
    obtain ⟨⟨h₁, h₂⟩, hseg⟩ := h
    refine ⟨⟨(hnext a List.mem_cons_self).trans h₁, (hprev y List.mem_cons_self).trans h₂⟩, ?_⟩
    exact ih hseg (fun u hu => hnext u (List.mem_cons_of_mem _ hu)) (fun u hu => hprev u (List.mem_cons_of_mem _ hu))

theorem Links.Ring.frame (h : L.Ring head xs) (hsame : ∀ u ∈ head :: xs, L'.next u = L.next u ∧ L'.prev u = L.prev u) :
    L'.Ring head xs := by
  refine ⟨h.nodup, h.seg.frame (fun u hu => (hsame u hu).1) fun u hu => (hsame u ?_).2⟩
  rcases List.mem_append.mp hu with hu | hu
  · exact List.mem_cons_of_mem _ hu
  · rw [List.mem_singleton.mp hu]
    exact List.mem_cons_self

theorem Links.Seg.prev_mem (h : L.Seg a xs b) : L.prev b ∈ a :: xs := by
  induction xs generalizing a with
  | nil =>
    rw [h.2]
    exact List.mem_cons_self
  | cons y xs ih => exact List.mem_cons_of_mem _ (ih h.2)

theorem Links.Seg.next_mem (h : L.Seg a xs b) : L.next a ∈ xs ++ [b] := by
  cases xs with
  | nil =>
    rw [h.1]
    exact List.mem_singleton_self b
  | cons y xs =>
    rw [h.1.1]
    exact List.mem_cons_self

theorem Links.Seg.prev_eq_getLast (h : L.Seg a xs b) : L.prev b = (a :: xs).getLast (List.cons_ne_nil a xs) := by
  induction xs generalizing a with
  | nil => exact h.2
  | cons y xs ih => exact ih h.2

/-- Whether a list is empty is seen at its head. -/
theorem Links.Ring.next_eq_head (h : L.Ring head xs) : L.next head = head ↔ xs = [] := by
  cases xs with
  | nil => exact ⟨fun _ => rfl, fun _ => h.seg.1⟩
  | cons x xs =>
    refine ⟨fun heq => ?_, fun heq => by cases heq⟩
    have hx : L.next head = x := h.seg.1.1
    exact absurd (List.mem_cons.mpr (.inl (heq.symm.trans hx))) (List.nodup_cons.mp h.nodup).1

/-- A ring can be read from any of its nodes. -/
theorem Links.Ring.rotate (h : L.Ring head (xs ++ x :: ys)) : L.Ring x (ys ++ head :: xs) := by
  obtain ⟨hleft, hright⟩ := seg_append.mp h.seg
  refine ⟨?_, seg_append.mpr ⟨hright, hleft⟩⟩
  have hperm : (head :: (xs ++ x :: ys)).Perm (x :: (ys ++ head :: xs)) := by
    rw [← List.cons_append, ← List.cons_append]
    exact List.perm_append_comm
  exact hperm.nodup_iff.mp h.nodup

theorem mem_rotate {u : α} : u ∈ x :: (ys ++ head :: xs) ↔ u ∈ head :: (xs ++ x :: ys) := by
  simp only [List.mem_cons, List.mem_append]
  tauto

/-- The last node of the segment gets another successor. -/
theorem Links.Seg.relink_right (h : L.Seg a xs x) (hnodup : (a :: xs).Nodup) (hnext : L'.next (L.prev x) = n)
    (hprev : L'.prev n = L.prev x) (hnext' : ∀ u ∈ a :: xs, u ≠ L.prev x → L'.next u = L.next u)
    (hprev' : ∀ u ∈ xs, L'.prev u = L.prev u) : L'.Seg a xs n := by
  induction xs generalizing a with
  | nil =>
    rw [h.2] at hnext hprev
    exact ⟨hnext, hprev⟩
  | cons y xs ih =>
    obtain ⟨⟨h₁, h₂⟩, hseg⟩ := h
    obtain ⟨hnot, hnodup⟩ := List.nodup_cons.mp hnodup
    have hne : a ≠ L.prev x := by
      rintro rfl
      exact hnot hseg.prev_mem
    refine ⟨⟨(hnext' a List.mem_cons_self hne).trans h₁, (hprev' y List.mem_cons_self).trans h₂⟩, ?_⟩
    exact ih hseg hnodup (fun u hu => hnext' u (List.mem_cons_of_mem _ hu)) (fun u hu => hprev' u (List.mem_cons_of_mem _ hu))

/-- The pointers of a node of a ring lead to its nodes, and back. -/
theorem Links.Ring.prev_next (h : L.Ring head xs) {u : α} (hu : u ∈ head :: xs) : L.next u ∈ head :: xs ∧ L.prev (L.next u) = u := by
  have hhead : ∀ {head xs}, L.Ring head xs → L.next head ∈ head :: xs ∧ L.prev (L.next head) = head := by
    intro head xs h
    cases xs with
    | nil =>
      obtain ⟨h₁, h₂⟩ := h.seg
      rw [h₁, h₂]
      exact ⟨List.mem_cons_self, rfl⟩
    | cons y ys =>
      obtain ⟨⟨h₁, h₂⟩, -⟩ := h.seg
      rw [h₁, h₂]
      exact ⟨List.mem_cons_of_mem _ List.mem_cons_self, rfl⟩
  rcases List.mem_cons.mp hu with rfl | hu
  · exact hhead h
  · obtain ⟨as, bs, rfl⟩ := List.append_of_mem hu
    exact (hhead h.rotate).imp mem_rotate.mp id

theorem Links.Ring.next_last (h : L.Ring head xs) : L.next (L.prev head) = head := by
  rw [h.seg.prev_eq_getLast]
  rcases List.eq_nil_or_concat xs with rfl | ⟨ys, y, rfl⟩
  · exact h.seg.1
  · rw [List.concat_eq_append] at h
    have hy : L.Pair y head := (seg_append.mp h.seg).2
    simpa using hy.1

/-- The node before the head is the last one. -/
theorem Links.Ring.next_eq_head_iff (h : L.Ring head xs) {u : α} (hu : u ∈ head :: xs) :
    L.next u = head ↔ (head :: xs).getLast (List.cons_ne_nil head xs) = u := by
  rw [← h.seg.prev_eq_getLast]
  constructor
  · intro hn
    rw [← hn]
    exact (h.prev_next hu).2
  · rintro rfl
    exact h.next_last

section
variable [DecidableEq α]

/-- A node that points to itself already is left alone. -/
theorem Links.Ring.nodeInit_eq (h : L.Ring head []) : L.nodeInit head = L := by
  obtain ⟨h₁, h₂⟩ := h.seg
  have hnext : Function.update L.next head head = L.next := by
    rw [Function.update_eq_self_iff, h₁]
  have hprev : Function.update L.prev head head = L.prev := by
    rw [Function.update_eq_self_iff, h₂]
  rw [Links.nodeInit, hnext, hprev]

theorem nodeInit_frame {u : α} (hu : u ≠ node) :
    (L.nodeInit node).next u = L.next u ∧ (L.nodeInit node).prev u = L.prev u :=
  ⟨Function.update_of_ne hu _ _, Function.update_of_ne hu _ _⟩

theorem nodeInit_ring : (L.nodeInit head).Ring head [] :=
  ⟨List.nodup_singleton head, Function.update_self .., Function.update_self ..⟩

/-! ### Insertion -/

theorem insertBetween_frame {u : α} (hu : u ≠ node) (hp : u ≠ p) (hn : u ≠ n) :
    (L.insertBetween node p n).next u = L.next u ∧ (L.insertBetween node p n).prev u = L.prev u :=
  ⟨(Function.update_of_ne hp _ _).trans (Function.update_of_ne hu _ _),
    (Function.update_of_ne hn _ _).trans (Function.update_of_ne hu _ _)⟩

theorem insertHead_frame (h : L.Ring head xs) {u : α} (hu : u ∉ head :: xs) (hne : u ≠ node) :
    (L.insertBetween node head (L.next head)).next u = L.next u ∧
      (L.insertBetween node head (L.next head)).prev u = L.prev u := by
  refine insertBetween_frame hne (List.ne_of_not_mem_cons hu) ?_
  rintro rfl
  rcases List.mem_append.mp h.seg.next_mem with hmem | hmem
  · exact hu (List.mem_cons_of_mem _ hmem)
  · exact List.ne_of_not_mem_cons hu (List.mem_singleton.mp hmem)

theorem Links.Ring.insertHead (h : L.Ring head xs) (hnode : node ∉ head :: xs) :
    (L.insertBetween node head (L.next head)).Ring head (node :: xs) := by
  obtain ⟨hhead, hxs⟩ := not_or.mp fun hor => hnode (List.mem_cons.mpr hor)
  obtain ⟨hnot, hnodup⟩ := List.nodup_cons.mp h.nodup
  have hn : node ≠ L.next head := by
    intro heq
    rcases List.mem_append.mp h.seg.next_mem with hmem | hmem
    · exact hxs (heq ▸ hmem)
    · exact hhead (heq.trans (List.mem_singleton.mp hmem))
  have hfirst : (L.insertBetween node head (L.next head)).Pair head node :=
    ⟨Function.update_self .., (Function.update_of_ne hn _ _).trans (Function.update_self ..)⟩
  have hsecond : (L.insertBetween node head (L.next head)).Pair node (L.next head) :=
    ⟨(Function.update_of_ne hhead _ _).trans (Function.update_self ..), Function.update_self ..⟩
  refine ⟨?_, hfirst, ?_⟩
  · rw [List.nodup_cons, List.mem_cons, not_or]
    exact ⟨⟨Ne.symm hhead, hnot⟩, List.nodup_cons.mpr ⟨hxs, hnodup⟩⟩
  · cases xs with
    | nil =>
      rw [h.seg.1] at hsecond
      rwa [h.seg.1]
    | cons y ys =>
      obtain ⟨⟨hy, -⟩, hseg⟩ := h.seg
      rw [hy] at hsecond ⊢
      refine ⟨hsecond, hseg.frame (fun u hu => ?_) fun u hu => ?_⟩
      · -- the pointers to the next node change at the new node and at the head
        refine (Function.update_of_ne ?_ _ _).trans (Function.update_of_ne ?_ _ _)
        · exact fun heq => hnot (heq ▸ hu)
        · exact fun heq => hxs (heq ▸ hu)
      · -- those to the previous one change at the new node and at the one after it
        have hu' : u ∈ ys ∨ u = head := by simpa using hu
        refine (Function.update_of_ne ?_ _ _).trans (Function.update_of_ne ?_ _ _)
        · rintro rfl
          rcases hu' with hmem | rfl
          · exact (List.nodup_cons.mp hnodup).1 hmem
          · exact hnot List.mem_cons_self
        · rintro rfl
          rcases hu' with hmem | rfl
          · exact hxs (List.mem_cons_of_mem _ hmem)
          · exact hhead rfl

/-- The node that is inserted before the head comes after the last one. -/
theorem Links.Ring.insertTail_eq (h : L.Ring head xs) :
    L.insertTail node head = L.insertBetween node (L.prev head) (L.next (L.prev head)) := by
  rw [h.next_last]
  rfl

theorem insertTail_frame (h : L.Ring head xs) {u : α} (hu : u ∉ head :: xs) (hne : u ≠ node) :
    (L.insertTail node head).next u = L.next u ∧ (L.insertTail node head).prev u = L.prev u := by
  refine insertBetween_frame hne ?_ (List.ne_of_not_mem_cons hu)
  rintro rfl
  exact hu h.seg.prev_mem

theorem Links.Ring.insertTail (h : L.Ring head xs) (hnode : node ∉ head :: xs) :
    (L.insertTail node head).Ring head (xs ++ [node]) := by
  rw [h.insertTail_eq]
  rcases List.eq_nil_or_concat xs with rfl | ⟨ys, y, rfl⟩
  · rw [show L.prev head = head from h.seg.2]
    exact h.insertHead hnode
  · rw [List.concat_eq_append] at h hnode ⊢
    have hy : L.prev head = y := by
      rw [h.seg.prev_eq_getLast]
      simp
    rw [hy]
    -- read from its last node, the ring gets the new node behind its head
    have hring := h.rotate.insertHead fun hmem => hnode (mem_rotate.mp hmem)
    rw [List.append_assoc]
    exact @Links.Ring.rotate _ _ head y [node] ys hring

/-! ### Removal -/

theorem removeNode_frame_self (h : L.Ring x xs) {u : α} (hu : u ∉ x :: xs) :
    (L.removeNode x).next u = L.next u ∧ (L.removeNode x).prev u = L.prev u := by
  have hx := List.ne_of_not_mem_cons hu
  have hp : u ≠ L.prev x := by
    rintro rfl
    exact hu h.seg.prev_mem
  have hn : u ≠ L.next x := by
    rintro rfl
    rcases List.mem_append.mp h.seg.next_mem with hmem | hmem
    · exact hu (List.mem_cons_of_mem _ hmem)
    · exact hx (List.mem_singleton.mp hmem)
  exact ⟨(Function.update_of_ne hx _ _).trans (Function.update_of_ne hp _ _),
    (Function.update_of_ne hx _ _).trans (Function.update_of_ne hn _ _)⟩

theorem removeNode_frame (h : L.Ring head (xs ++ x :: ys)) {u : α} (hu : u ∉ head :: (xs ++ x :: ys)) :
    (L.removeNode x).next u = L.next u ∧ (L.removeNode x).prev u = L.prev u :=
  removeNode_frame_self h.rotate fun hmem => hu (mem_rotate.mp hmem)

/-- The node that is removed is the only one of a ring then. -/
theorem removeNode_ring : (L.removeNode x).Ring x [] := nodeInit_ring

/-- What remains of a ring, read from the node after the one that is removed. -/
theorem Links.Ring.removeHead (h : L.Ring x (n :: ys)) : (L.removeNode x).Ring n ys := by
  obtain ⟨⟨hn, -⟩, hseg⟩ := h.seg
  obtain ⟨hx, hnodup⟩ := List.nodup_cons.mp h.nodup
  obtain ⟨hnot, -⟩ := List.nodup_cons.mp hnodup
  have hp := hseg.prev_mem
  have hne : ∀ u ∈ n :: ys, u ≠ x := fun u hu heq => hx (heq ▸ hu)
  refine ⟨hnodup, hseg.relink_right hnodup ?_ ?_ (fun u hu hup => ?_) fun u hu => ?_⟩
  · exact (Function.update_of_ne (hne _ hp) _ _).trans ((Function.update_self ..).trans hn)
  · refine (Function.update_of_ne (hne n List.mem_cons_self) _ _).trans ?_
    rw [hn]
    exact Function.update_self ..
  · exact (Function.update_of_ne (hne u hu) _ _).trans (Function.update_of_ne hup _ _)
  · refine (Function.update_of_ne (hne u (List.mem_cons_of_mem _ hu)) _ _).trans (Function.update_of_ne ?_ _ _)
    rw [hn]
    exact fun heq => hnot (heq ▸ hu)

theorem Links.Ring.removeNode (h : L.Ring head (xs ++ x :: ys)) : (L.removeNode x).Ring head (xs ++ ys) := by
  have hring := h.rotate
  cases ys with
  | nil =>
    rw [List.append_nil]
    exact hring.removeHead
  | cons y ys => exact hring.removeHead.rotate

end

end CircularList
