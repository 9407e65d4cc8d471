import DoubleTake.ListOps

/-! The lists of `list.hh` are sequences: each node of a memory is in one ring, and an operation on a list changes the sequence
    of that list only. -/

namespace DoubleTake
namespace ListOps

open CircularList

variable {α : Type} [DecidableEq α] {L L' : Links α} {N : Set α} {lists lists' : α → Option (List α)}
  {owner : α → α}
  {node head prev x : α} {xs ys : List α} {op : Op α} {answer : Answer α} {ops : List (Op α)} {answers : List (Answer α)}

/-! ### Memories -/

/-- The nodes in `N` are partitioned into rings, which are given by their heads; a single node is the head of an empty list. The
    ring that a node is in is that of its owner. -/
structure Rings (N : Set α) (L : Links α) (lists : α → Option (List α)) (owner : α → α) : Prop where
  ring : ∀ h xs, lists h = some xs → L.Ring h xs
  owned : ∀ u ∈ N, lists (owner u) ≠ none
  mem : ∀ h xs u, lists h = some xs → (u ∈ h :: xs ↔ u ∈ N ∧ owner u = h)

/-- The list of `head` becomes `xs`, and `node` is what `single` says. -/
def changed (lists : α → Option (List α)) (node : α) (single : Option (List α)) (head : α) (xs : List α) : α → Option (List α) :=
  Function.update (Function.update lists node single) head (some xs)

theorem changed_cases {single : Option (List α)} {h : α} {zs : List α} (hk : changed lists node single head xs h = some zs) :
    h = head ∧ zs = xs ∨ h ≠ head ∧ h = node ∧ single = some zs ∨ h ≠ head ∧ h ≠ node ∧ lists h = some zs := by
  by_cases hh : h = head
  · subst hh
    rw [changed, Function.update_self] at hk
    exact .inl ⟨rfl, (Option.some.inj hk).symm⟩
  · rw [changed, Function.update_of_ne hh] at hk
    by_cases hn : h = node
    · subst hn
      rw [Function.update_self] at hk
      exact .inr (.inl ⟨hh, rfl, hk⟩)
    · rw [Function.update_of_ne hn] at hk
      exact .inr (.inr ⟨hh, hn, hk⟩)

/-- A node goes into a list or out of it; the list and the node have the same nodes before and after. -/
theorem Rings.change (h : Rings N L lists owner) {single : Option (List α)} {o : α} (hhead : lists head = some xs)
    (hne : node ≠ head) (hnode : lists node = some [] ∨ lists node = none ∧ node ∈ xs) (hring : L'.Ring head ys)
    (hsingle : o = head ∧ single = none ∧ node ∈ ys ∨ o = node ∧ single = some [] ∧ node ∉ ys ∧ L'.Ring node [])
    (hsame : ∀ u, u ≠ node → (u ∈ ys ↔ u ∈ xs))
    (hframe : ∀ u, u ∉ head :: xs → u ≠ node → L'.next u = L.next u ∧ L'.prev u = L.prev u) :
    Rings N L' (changed lists node single head ys) (Function.update owner node o) := by
  -- the node has been the owner of at most itself, and its owner is the list or itself
  have hN : node ∈ N ∧ (owner node = node ∨ owner node = head) := by
    rcases hnode with hs | ⟨-, hmem⟩
    · exact ((h.mem node [] node hs).mp List.mem_cons_self).imp id .inl
    · exact ((h.mem head xs node hhead).mp (List.mem_cons_of_mem _ hmem)).imp id .inr
  have hown : ∀ u ∈ N, owner u = node → u = node := by
    intro u hu ho
    rcases hnode with hs | ⟨hnone, -⟩
    · exact List.mem_singleton.mp ((h.mem node [] u hs).mpr ⟨hu, ho⟩)
    · exact absurd (ho ▸ hnone) (h.owned u hu)
  have hother : ∀ k zs, k ≠ head → k ≠ node → lists k = some zs → ∀ u ∈ k :: zs, u ∉ head :: xs ∧ u ≠ node := by
    intro k zs hk hkn hzs u hu
    have hku := ((h.mem k zs u hzs).mp hu).2
    refine ⟨fun hmem => hk (hku.symm.trans ((h.mem head xs u hhead).mp hmem).2), ?_⟩
    rintro rfl
    rcases hN.2 with ho | ho
    · exact hkn (hku.symm.trans ho)
    · exact hk (hku.symm.trans ho)
  refine ⟨fun k zs hk => ?_, fun u hu => ?_, fun k zs u hk => ?_⟩
  · rcases changed_cases hk with ⟨rfl, rfl⟩ | ⟨-, rfl, hs⟩ | ⟨hkh, hkn, hzs⟩
    · exact hring
    · rcases hsingle with ⟨-, hnone, -⟩ | ⟨-, hsome, -, hr⟩
      · cases hnone.symm.trans hs
      · cases hsome.symm.trans hs
        exact hr
    · exact (h.ring k zs hzs).frame fun u hu => hframe u (hother k zs hkh hkn hzs u hu).1 (hother k zs hkh hkn hzs u hu).2
  · by_cases hun : u = node
    · subst hun
      rw [Function.update_self]
      rcases hsingle with ⟨rfl, -⟩ | ⟨rfl, hsome, -⟩
      · rw [changed, Function.update_self]
        exact fun hnone => by cases hnone
      · rw [changed, Function.update_of_ne hne, Function.update_self, hsome]
        exact fun hnone => by cases hnone
    · rw [Function.update_of_ne hun]
      by_cases hk : owner u = head
      · rw [hk, changed, Function.update_self]
        exact fun hnone => by cases hnone
      · rw [changed, Function.update_of_ne hk, Function.update_of_ne fun ho => hun (hown u hu ho)]
        exact h.owned u hu
  · rcases changed_cases hk with ⟨rfl, rfl⟩ | ⟨hkh, rfl, hs⟩ | ⟨hkh, hkn, hzs⟩
    · by_cases hun : u = node
      · subst hun
        rw [Function.update_self, List.mem_cons, or_iff_right hne, and_iff_right hN.1]
        rcases hsingle with ⟨rfl, -, hmem⟩ | ⟨rfl, -, hnot, -⟩
        · exact iff_of_true hmem rfl
        · exact iff_of_false hnot hne
      · rw [Function.update_of_ne hun, ← h.mem k xs u hhead, List.mem_cons, List.mem_cons, hsame u hun]
    · obtain ⟨rfl, rfl⟩ : o = k ∧ zs = [] := by
        rcases hsingle with ⟨-, hnone, -⟩ | ⟨ho, hsome, -⟩
        · cases hnone.symm.trans hs
        · cases hsome.symm.trans hs
          exact ⟨ho, rfl⟩
      rw [List.mem_singleton]
      by_cases hun : u = o
      · subst hun
        exact iff_of_true rfl ⟨hN.1, Function.update_self ..⟩
      · rw [Function.update_of_ne hun]
        exact iff_of_false hun fun hu => hun (hown u hu.1 hu.2)
    · by_cases hun : u = node
      · subst hun
        rw [Function.update_self]
        refine iff_of_false (fun hu => (hother k zs hkh hkn hzs u hu).2 rfl) fun hu => ?_
        rcases hsingle with ⟨ho, -⟩ | ⟨ho, -⟩
        · exact hkh (hu.2.symm.trans ho)
        · exact hkn (hu.2.symm.trans ho)
      · rw [Function.update_of_ne hun]
        exact h.mem k zs u hzs

/-- A single node goes into a list. -/
theorem Rings.enter (h : Rings N L lists owner) (hhead : lists head = some xs) (hne : node ≠ head) (hnode : lists node = some [])
    (hring : L'.Ring head ys) (hmem : ∀ u, u ∈ ys ↔ u ∈ xs ∨ u = node)
    (hframe : ∀ u, u ∉ head :: xs → u ≠ node → L'.next u = L.next u ∧ L'.prev u = L.prev u) :
    Rings N L' (changed lists node none head ys) (Function.update owner node head) :=
  h.change hhead hne (.inl hnode) hring (.inl ⟨rfl, rfl, (hmem node).mpr (.inr rfl)⟩)
    (fun u hu => (hmem u).trans (or_iff_left hu)) hframe

omit [DecidableEq α] in
theorem Rings.not_mem (h : Rings N L lists owner) (hhead : lists head = some xs) (hne : node ≠ head) (hnode : lists node = some []) :
    node ∉ head :: xs := fun hmem =>
  hne (((h.mem node [] node hnode).mp List.mem_cons_self).2.symm.trans ((h.mem head xs node hhead).mp hmem).2)

/-- A node of a list is a single node after its removal. -/
theorem Rings.removeNode (h : Rings N L lists owner) (hhead : lists head = some (xs ++ x :: ys)) :
    Rings N (L.removeNode x) (changed lists x (some []) head (xs ++ ys)) (Function.update owner x x) := by
  have hring := h.ring _ _ hhead
  obtain ⟨hnot, hnodup⟩ := List.nodup_cons.mp hring.nodup
  have hx : x ∈ xs ++ x :: ys := List.mem_append_right _ List.mem_cons_self
  have hne : x ≠ head := fun heq => hnot (heq ▸ hx)
  have hgone : x ∉ xs ++ ys := by
    have := (List.perm_middle.nodup_iff.mp hnodup)
    exact (List.nodup_cons.mp this).1
  have hnone : lists x = none := by
    cases hl : lists x with
    | none => rfl
    | some zs =>
      have h₁ := ((h.mem x zs x hl).mp List.mem_cons_self).2
      have h₂ := ((h.mem head _ x hhead).mp (List.mem_cons_of_mem _ hx)).2
      exact absurd (h₁.symm.trans h₂) hne
  refine h.change hhead hne (.inr ⟨hnone, hx⟩) hring.removeNode (.inr ⟨rfl, rfl, hgone, removeNode_ring⟩) (fun u hu => ?_)
    fun u hu _ => removeNode_frame hring hu
  simp [hu]

/-! ### Operations -/

/-- What an operation does to the sequences and answers, and when it may be called: a node that is inserted is single, one that
    is removed is in a list, and the head of a list is one. -/
inductive Step (N : Set α) (lists : α → Option (List α)) : Op α → Answer α → (α → Option (List α)) → Prop where
  | listInit {n : α} : lists n = some [] → Step N lists (.listInit n) .void lists
  | listInsertHead {n h : α} {as : List α} : n ≠ h → lists n = some [] → lists h = some as →
      Step N lists (.listInsertHead n h) .void (changed lists n none h (n :: as))
  | listInsertTail {n h : α} {as : List α} : n ≠ h → lists n = some [] → lists h = some as →
      Step N lists (.listInsertTail n h) .void (changed lists n none h (as ++ [n]))
  | listInsertNode_head {n h : α} {as : List α} : n ≠ h → lists n = some [] → lists h = some as →
      Step N lists (.listInsertNode n h) .void (changed lists n none h (n :: as))
  | listInsertNode {n h p : α} {as bs : List α} : n ≠ h → lists n = some [] → lists h = some (as ++ p :: bs) →
      Step N lists (.listInsertNode n p) .void (changed lists n none h (as ++ p :: n :: bs))
  | listRemoveNode {n h : α} {as bs : List α} : lists h = some (as ++ n :: bs) →
      Step N lists (.listRemoveNode n) .void (changed lists n (some []) h (as ++ bs))
  | listRetrieveItem_empty {h : α} : lists h = some [] → Step N lists (.listRetrieveItem h) (.item none) lists
  | listRetrieveItem {n h : α} {as : List α} : lists h = some (n :: as) →
      Step N lists (.listRetrieveItem h) (.item (some n)) (changed lists n (some []) h as)
  | isListEmpty {h : α} {as : List α} : lists h = some as → Step N lists (.isListEmpty h) (.bool (decide (as = []))) lists
  | isListTail {n h : α} {as : List α} : lists h = some as → n ∈ N →
      Step N lists (.isListTail n h) (.bool (decide ((h :: as).getLast (List.cons_ne_nil _ _) = n))) lists
  | tailList {h : α} {as : List α} : lists h = some as → Step N lists (.tailList h) (.item as.getLast?) lists

/-- When an operation may be called. -/
def Legal (N : Set α) (lists : α → Option (List α)) : Op α → Prop
  | .listInit node => lists node = some []
  | .listInsertHead node head | .listInsertTail node head => node ≠ head ∧ lists node = some [] ∧ lists head ≠ none
  | .listInsertNode node prev => node ≠ prev ∧ lists node = some [] ∧ prev ∈ N
  | .listRemoveNode node => node ∈ N ∧ lists node = none
  | .listRetrieveItem head | .isListEmpty head | .tailList head => lists head ≠ none
  | .isListTail node head => node ∈ N ∧ lists head ≠ none

omit [DecidableEq α] in
/-- A node is the head of its list, or an element of it. -/
theorem Rings.find (h : Rings N L lists owner) {u : α} (hu : u ∈ N) :
    (∃ xs, lists u = some xs) ∨ lists u = none ∧ ∃ head xs ys, lists head = some (xs ++ u :: ys) := by
  cases hl : lists u with
  | some xs => exact .inl ⟨xs, rfl⟩
  | none =>
    obtain ⟨zs, hzs⟩ := Option.ne_none_iff_exists'.mp (h.owned u hu)
    rcases List.mem_cons.mp ((h.mem _ zs u hzs).mpr ⟨hu, rfl⟩) with heq | hmem
    · rw [← heq, hl] at hzs
      cases hzs
    · obtain ⟨xs, ys, rfl⟩ := List.append_of_mem hmem
      exact .inr ⟨rfl, _, xs, ys, hzs⟩

theorem step_of_legal (h : Rings N L lists owner) (hl : Legal N lists op) : ∃ answer lists', Step N lists op answer lists' := by
  cases op with
  | listInit node => exact ⟨_, _, .listInit hl⟩
  | listInsertHead node head =>
    obtain ⟨xs, hxs⟩ := Option.ne_none_iff_exists'.mp hl.2.2
    exact ⟨_, _, .listInsertHead hl.1 hl.2.1 hxs⟩
  | listInsertTail node head =>
    obtain ⟨xs, hxs⟩ := Option.ne_none_iff_exists'.mp hl.2.2
    exact ⟨_, _, .listInsertTail hl.1 hl.2.1 hxs⟩
  | listInsertNode node prev =>
    rcases h.find hl.2.2 with ⟨xs, hxs⟩ | ⟨-, head, xs, ys, hxs⟩
    · exact ⟨_, _, .listInsertNode_head hl.1 hl.2.1 hxs⟩
    · refine ⟨_, _, .listInsertNode ?_ hl.2.1 hxs⟩
      -- the single node is no head of a list that has elements
      rintro rfl
      exact List.append_ne_nil_of_right_ne_nil xs (List.cons_ne_nil prev ys) (Option.some.inj (hxs.symm.trans hl.2.1))
  | listRemoveNode node =>
    rcases h.find hl.1 with ⟨xs, hxs⟩ | ⟨-, head, xs, ys, hxs⟩
    · cases hxs.symm.trans hl.2
    · exact ⟨_, _, .listRemoveNode hxs⟩
  | listRetrieveItem head =>
    obtain ⟨xs, hxs⟩ := Option.ne_none_iff_exists'.mp hl
    cases xs with
    | nil => exact ⟨_, _, .listRetrieveItem_empty hxs⟩
    | cons x xs => exact ⟨_, _, .listRetrieveItem hxs⟩
  | isListEmpty head =>
    obtain ⟨xs, hxs⟩ := Option.ne_none_iff_exists'.mp hl
    exact ⟨_, _, .isListEmpty hxs⟩
  | isListTail node head =>
    obtain ⟨xs, hxs⟩ := Option.ne_none_iff_exists'.mp hl.2
    exact ⟨_, _, .isListTail hxs hl.1⟩
  | tailList head =>
    obtain ⟨xs, hxs⟩ := Option.ne_none_iff_exists'.mp hl
    exact ⟨_, _, .tailList hxs⟩

theorem isListEmpty_eq (h : L.Ring head xs) : isListEmpty L head = decide (xs = []) := decide_eq_decide.mpr h.next_eq_head

theorem tailList_eq (h : L.Ring head xs) : tailList L head = xs.getLast? := by
  rw [tailList, isListEmpty_eq h, h.seg.prev_eq_getLast]
  cases xs with
  | nil => rfl
  | cons y ys => simp [List.getLast?_eq_some_getLast]

/-- The answer of a node of another list is that it is not the tail. -/
theorem Rings.isListTail_eq (h : Rings N L lists owner) (hhead : lists head = some xs) (hnode : node ∈ N) :
    isListTail L node head = decide ((head :: xs).getLast (List.cons_ne_nil _ _) = node) := by
  have hring := h.ring head xs hhead
  refine decide_eq_decide.mpr ?_
  by_cases ho : owner node = head
  · exact hring.next_eq_head_iff ((h.mem head xs node hhead).mpr ⟨hnode, ho⟩)
  · obtain ⟨zs, hzs⟩ := Option.ne_none_iff_exists'.mp (h.owned node hnode)
    have hmem := ((h.ring _ zs hzs).prev_next ((h.mem _ zs node hzs).mpr ⟨hnode, rfl⟩)).1
    refine iff_of_false (fun heq => ho ?_) fun heq => ho ?_
    · rw [heq] at hmem
      have h₁ := ((h.mem _ zs head hzs).mp hmem).2
      exact h₁.symm.trans ((h.mem head xs head hhead).mp List.mem_cons_self).2
    · have hlast := List.getLast_mem (List.cons_ne_nil head xs)
      rw [heq] at hlast
      exact ((h.mem head xs node hhead).mp hlast).2

/-- An operation does on the memory what it does on the sequences. -/
theorem exec_step (h : Rings N L lists owner) (hs : Step N lists op answer lists') :
    (exec L op).1 = answer ∧ ∃ owner', Rings N (exec L op).2 lists' owner' := by
  cases hs with
  | listInit hnode =>
    refine ⟨rfl, owner, ?_⟩
    rw [exec, listInit, (h.ring _ _ hnode).nodeInit_eq]
    exact h
  | listInsertHead hne hnode hhead | listInsertNode_head hne hnode hhead =>
    have hring := h.ring _ _ hhead
    refine ⟨rfl, _, h.enter hhead hne hnode (hring.insertHead (h.not_mem hhead hne hnode)) (fun u => ?_)
      fun u hu hun => insertHead_frame hring hu hun⟩
    rw [List.mem_cons, or_comm]
  | listInsertTail hne hnode hhead =>
    have hring := h.ring _ _ hhead
    refine ⟨rfl, _, h.enter hhead hne hnode (hring.insertTail (h.not_mem hhead hne hnode)) (fun u => ?_)
      fun u hu hun => insertTail_frame hring hu hun⟩
    rw [List.mem_append, List.mem_singleton]
  | listInsertNode hne hnode hhead =>
    have hring := h.ring _ _ hhead
    have hnot := h.not_mem hhead hne hnode
    -- the ring is read from the node after which the new one goes
    have hrot := hring.rotate.insertHead fun hmem => hnot (mem_rotate.mp hmem)
    refine ⟨rfl, _, h.enter hhead hne hnode (Links.Ring.rotate (List.cons_append .. ▸ hrot)) (fun u => ?_)
      fun u hu hun => insertHead_frame hring.rotate (fun hmem => hu (mem_rotate.mp hmem)) hun⟩
    simp only [List.mem_append, List.mem_cons]
    tauto
  | listRemoveNode hhead => exact ⟨rfl, _, h.removeNode hhead⟩
  | listRetrieveItem_empty hhead =>
    have hempty := isListEmpty_eq (h.ring _ _ hhead)
    have hitem : listRetrieveItem L _ = (none, L) := if_neg fun hn => hn (hempty.trans rfl)
    rw [exec, hitem]
    exact ⟨rfl, owner, h⟩
  | listRetrieveItem hhead =>
    have hring := h.ring _ _ hhead
    have hempty := isListEmpty_eq hring
    have hitem : listRetrieveItem L _ = (some (L.next _), L.removeNode (L.next _)) := if_pos fun hn => by
      cases hempty.symm.trans hn
    rw [exec, hitem, hring.seg.1.1]
    exact ⟨rfl, _, @Rings.removeNode _ _ _ _ _ _ _ _ [] _ h hhead⟩
  | isListEmpty hhead => exact ⟨congrArg Answer.bool (isListEmpty_eq (h.ring _ _ hhead)), owner, h⟩
  | isListTail hhead hnode => exact ⟨congrArg Answer.bool (h.isListTail_eq hhead hnode), owner, h⟩
  | tailList hhead => exact ⟨congrArg Answer.item (tailList_eq (h.ring _ _ hhead)), owner, h⟩

/-- Sequences of operations on the sequences, with the answers. -/
inductive Steps (N : Set α) : (α → Option (List α)) → List (Op α) → List (Answer α) → (α → Option (List α)) → Prop where
  | nil {l : α → Option (List α)} : Steps N l [] [] l
  | cons {l l₁ l₂ : α → Option (List α)} {o : Op α} {a : Answer α} {os : List (Op α)} {as : List (Answer α)} :
      Step N l o a l₁ → Steps N l₁ os as l₂ → Steps N l (o :: os) (a :: as) l₂

/-- A memory of lists stays one under every sequence of legal operations: it has the lists, and gives the answers, that the
    operations on the sequences have and give. -/
theorem simulates_sequences (h : Rings N L lists owner) (hs : Steps N lists ops answers lists') :
    (execAll L ops).1 = answers ∧ (∃ owner', Rings N (execAll L ops).2 lists' owner') ∧
      ∀ op, Legal N lists' op → ∃ answer lists'', Step N lists' op answer lists'' := by
  induction hs generalizing L owner with
  | nil => exact ⟨rfl, ⟨owner, h⟩, fun op => step_of_legal h⟩
  | cons hstep _ ih =>
    obtain ⟨hanswer, owner', h'⟩ := exec_step h hstep
    obtain ⟨hanswers, hrest⟩ := ih h'
    exact ⟨congrArg₂ List.cons hanswer hanswers, hrest⟩

/-- The memory in which every node is single. -/
theorem rings_single (α : Type) : @Rings α Set.univ ⟨id, id⟩ (fun _ => some []) id where
  ring h xs hh := by
    cases hh
    exact ⟨List.nodup_singleton h, rfl, rfl⟩
  owned u _ := Option.some_ne_none []
  mem h xs u hh := by
    cases hh
    rw [List.mem_singleton]
    exact (and_iff_right trivial).symm

theorem simulates_sequences_two :
    (execAll (⟨id, id⟩ : Links Nat) [.listInsertHead 1 0, .listRetrieveItem 0]).1 = [.void, .item (some 1)] ∧
      (∃ owner', Rings Set.univ (execAll (⟨id, id⟩ : Links Nat) [.listInsertHead 1 0, .listRetrieveItem 0]).2
        (changed (changed (fun _ => some []) 1 none 0 [1]) 1 (some []) 0 []) owner') ∧
      ∀ op, Legal Set.univ (changed (changed (fun _ => some []) 1 none 0 [1]) 1 (some []) 0 []) op →
        ∃ answer lists'', Step Set.univ (changed (changed (fun _ => some []) 1 none 0 [1]) 1 (some []) 0 []) op answer lists'' :=
  simulates_sequences (rings_single Nat) (.cons (.listInsertHead (by decide) rfl rfl) (.cons (.listRetrieveItem rfl) .nil))

/-! ### Bulk operations -/

section
variable {list w : α}

/-- The elements of a list go before the node `w` of another one; an empty list adds none. -/
theorem listInsertListTail_ring (h₁ : L.Ring list xs) (h₂ : L.Ring w ys) (hdisj : ∀ u ∈ list :: xs, u ∉ w :: ys) :
    (listInsertListTail L list w).Ring w (ys ++ xs) := by
  have hlist := hdisj list List.mem_cons_self
  have hp := h₂.seg.prev_mem
  have hlast := h₂.next_last
  cases xs with
  | nil =>
    have hself : L.next list = list := h₁.seg.1
    have hprev : (L.link (L.prev w) (L.next list)).prev list = L.prev w := by
      rw [hself]
      exact Function.update_self ..
    rw [List.append_nil]
    refine h₂.frame fun u hu => ?_
    have hul : u ≠ list := fun heq => hlist (heq ▸ hu)
    rw [listInsertListTail, hprev, hself]
    constructor
    · show Function.update (Function.update L.next (L.prev w) list) (L.prev w) w u = L.next u
      by_cases hup : u = L.prev w
      · rw [hup, Function.update_self, hlast]
      · rw [Function.update_of_ne hup, Function.update_of_ne hup]
    · show Function.update (Function.update L.prev list (L.prev w)) w (L.prev w) u = L.prev u
      by_cases huw : u = w
      · rw [huw, Function.update_self]
      · rw [Function.update_of_ne huw, Function.update_of_ne hul]
  | cons x xs =>
    obtain ⟨⟨hx, -⟩, hseg⟩ := h₁.seg
    obtain ⟨hnot, hnodup⟩ := List.nodup_cons.mp h₁.nodup
    obtain ⟨hxnot, -⟩ := List.nodup_cons.mp hnodup
    obtain ⟨hwnot, -⟩ := List.nodup_cons.mp h₂.nodup
    have hq := hseg.prev_mem
    have hxs : ∀ u ∈ x :: xs, u ∉ w :: ys := fun u hu => hdisj u (List.mem_cons_of_mem _ hu)
    have hlx : list ≠ x := fun heq => hnot (heq ▸ List.mem_cons_self)
    have hpq : L.prev w ≠ L.prev list := fun heq => hxs _ hq (heq ▸ hp)
    have hxw : x ≠ w := fun heq => hxs x List.mem_cons_self (heq ▸ List.mem_cons_self)
    have hprev : (L.link (L.prev w) (L.next list)).prev list = L.prev list := by
      rw [hx]
      exact Function.update_of_ne hlx _ _
    -- the two pointers that lead on, and the two that lead back
    have hnext : ∀ u, u ≠ L.prev list → u ≠ L.prev w → (listInsertListTail L list w).next u = L.next u := fun u h₁ h₂ => by
      rw [listInsertListTail, hprev]
      exact (Function.update_of_ne h₁ _ _).trans (Function.update_of_ne h₂ _ _)
    have hback : ∀ u, u ≠ w → u ≠ x → (listInsertListTail L list w).prev u = L.prev u := fun u h₁ h₂ => by
      rw [listInsertListTail, hx]
      exact (Function.update_of_ne h₁ _ _).trans (Function.update_of_ne h₂ _ _)
    refine ⟨?_, seg_append.mpr ⟨h₂.seg.relink_right h₂.nodup ?_ ?_ (fun u hu hup => ?_) fun u hu => ?_,
      hseg.relink_right hnodup ?_ ?_ (fun u hu huq => ?_) fun u hu => ?_⟩⟩
    · rw [← List.cons_append]
      exact List.nodup_append.mpr ⟨h₂.nodup, hnodup, fun u hu v hv heq => hxs v hv (heq ▸ hu)⟩
    · rw [listInsertListTail, hprev]
      exact (Function.update_of_ne hpq _ _).trans ((Function.update_self ..).trans hx)
    · rw [listInsertListTail, hx]
      exact (Function.update_of_ne hxw _ _).trans (Function.update_self ..)
    · exact hnext u (fun heq => hxs _ hq (heq ▸ hu)) hup
    · exact hback u (fun heq => hwnot (heq ▸ hu)) fun heq => hxs x List.mem_cons_self (heq ▸ List.mem_cons_of_mem _ hu)
    · rw [listInsertListTail, hprev]
      exact Function.update_self ..
    · rw [listInsertListTail, hprev]
      exact Function.update_self ..
    · exact hnext u huq fun heq => hxs u hu (heq ▸ hp)
    · exact hback u (fun heq => hxs u (List.mem_cons_of_mem _ hu) (heq ▸ List.mem_cons_self)) fun heq => hxnot (heq ▸ hu)

/-- `listInsertList` links the two nodes that it begins with twice, and the last node of the list never. -/
theorem listInsertList_not_ring (h₁ : L.Ring list xs) (hdisj : ∀ u ∈ list :: xs, u ∉ w :: ys) :
    ¬ (listInsertList L list w).Ring w (list :: (xs ++ ys)) := by
  intro hring
  have hq := h₁.seg.prev_mem
  have hqw : L.prev list ≠ w := fun heq => hdisj _ hq (heq ▸ List.mem_cons_self)
  have hprev : (L.link w list).prev list = w := Function.update_self ..
  have hnext : (L.link w list).next w = list := Function.update_self ..
  have hlast : (listInsertList L list w).next (L.prev list) = list := by
    rw [listInsertList, hprev, hnext]
    exact (Function.update_of_ne hqw _ _).trans ((Function.update_of_ne hqw _ _).trans h₁.next_last)
  have hmem : L.prev list ∈ w :: list :: (xs ++ ys) := by
    rcases List.mem_cons.mp hq with heq | hmem
    · rw [heq]
      exact List.mem_cons_of_mem _ List.mem_cons_self
    · exact List.mem_cons_of_mem _ (List.mem_cons_of_mem _ (List.mem_append_left _ hmem))
  have hback := (hring.prev_next hmem).2
  rw [hlast, listInsertList, hprev, hnext] at hback
  exact hqw (hback.symm.trans (Function.update_self ..))

/-- All elements are retrieved into an empty list, unless there are none. -/
theorem listRetrieveAllItems_ring_iff (h₁ : L.Ring list xs) (hne : w ≠ list) (hw : w ∉ xs) :
    (listRetrieveAllItems L w list).Ring w xs ∧ (listRetrieveAllItems L w list).Ring list [] ↔ xs ≠ [] := by
  constructor
  · rintro ⟨hring, -⟩ rfl
    have hfirst : (listRetrieveAllItems L w list).next w = list := by
      refine (Function.update_of_ne hne _ _).trans ((Function.update_self ..).trans ?_)
      exact h₁.seg.1
    exact hne (hring.seg.1.symm.trans hfirst)
  · intro hxs
    obtain ⟨x, xs, rfl⟩ := List.exists_cons_of_ne_nil hxs
    obtain ⟨⟨hx, -⟩, hseg⟩ := h₁.seg
    obtain ⟨hnot, hnodup⟩ := List.nodup_cons.mp h₁.nodup
    have hq := hseg.prev_mem
    have hin : ∀ u ∈ x :: xs, u ≠ list ∧ u ≠ w := fun u hu => ⟨fun heq => hnot (heq ▸ hu), fun heq => hw (heq ▸ hu)⟩
    have hx' := hin x List.mem_cons_self
    refine ⟨⟨List.nodup_cons.mpr ⟨hw, hnodup⟩, ⟨?_, ?_⟩, hseg.relink_right hnodup ?_ ?_ (fun u hu huq => ?_) fun u hu => ?_⟩,
      nodeInit_ring⟩
    · exact (Function.update_of_ne hne _ _).trans ((Function.update_self ..).trans hx)
    · refine (Function.update_of_ne hx'.1 _ _).trans ((Function.update_of_ne hx'.2 _ _).trans ?_)
      rw [hx]
      exact Function.update_self ..
    · obtain ⟨hql, hqw⟩ := hin _ hq
      exact (Function.update_of_ne hql _ _).trans ((Function.update_of_ne hqw _ _).trans (Function.update_self ..))
    · exact (Function.update_of_ne hne _ _).trans (Function.update_self ..)
    · obtain ⟨hul, huw⟩ := hin u hu
      exact (Function.update_of_ne hul _ _).trans ((Function.update_of_ne huw _ _).trans (Function.update_of_ne huq _ _))
    · obtain ⟨hul, huw⟩ := hin u (List.mem_cons_of_mem _ hu)
      refine (Function.update_of_ne hul _ _).trans ((Function.update_of_ne huw _ _).trans (Function.update_of_ne ?_ _ _))
      rw [hx]
      exact fun heq => (List.nodup_cons.mp hnodup).1 (heq ▸ hu)

end

inductive BulkOp where
  | listInsertList
  | listInsertListTail
  | listRetrieveAllItems
  deriving DecidableEq, Repr

/-- What is to become of a list with the elements `xs` and of another ring, which is read from its node `w`. -/
def BulkOp.Moves (L : Links α) (list w : α) (xs ys : List α) : BulkOp → Prop
  | .listInsertList => (ListOps.listInsertList L list w).Ring w (list :: (xs ++ ys))
  | .listInsertListTail => (ListOps.listInsertListTail L list w).Ring w (ys ++ xs)
  | .listRetrieveAllItems => (ListOps.listRetrieveAllItems L w list).Ring w xs ∧ (ListOps.listRetrieveAllItems L w list).Ring list []

/-- The bulk operations move all nodes, in order, to where they belong, except that `listInsertList` never does, and that
    `listRetrieveAllItems` does not from an empty list. -/
theorem bulk_moves_iff {list w : α} (h₁ : L.Ring list xs) (h₂ : L.Ring w ys) (hdisj : ∀ u ∈ list :: xs, u ∉ w :: ys) {op : BulkOp}
    (hdest : op = .listRetrieveAllItems → ys = []) :
    op.Moves L list w xs ys ↔ op = .listInsertListTail ∨ op = .listRetrieveAllItems ∧ xs ≠ [] := by
  cases op with
  | listInsertList => exact iff_of_false (listInsertList_not_ring h₁ hdisj) (by simp)
  | listInsertListTail => exact iff_of_true (listInsertListTail_ring h₁ h₂ hdisj) (.inl rfl)
  | listRetrieveAllItems =>
    have hw : ∀ u ∈ list :: xs, w ≠ u := fun u hu heq => hdisj u hu (heq ▸ List.mem_cons_self)
    refine (listRetrieveAllItems_ring_iff h₁ (hw list List.mem_cons_self) fun hmem => hw w (List.mem_cons_of_mem _ hmem) rfl).trans ?_
    simp

/-- The list at 10 has the elements 11 and 12, the ring at 1 the element 2, and the list at 20 has none. -/
def threeLists : Links Nat :=
  [(11, 10), (12, 10), (2, 1)].foldl (fun L nodes => listInsertTail L nodes.1 nodes.2) ⟨id, id⟩

theorem threeLists_ring : threeLists.Ring 10 [11, 12] ∧ threeLists.Ring 1 [2] ∧ threeLists.Ring 20 [] :=
  ⟨⟨by decide, ⟨by decide, by decide⟩, ⟨by decide, by decide⟩, by decide, by decide⟩,
    ⟨by decide, ⟨by decide, by decide⟩, by decide, by decide⟩, ⟨by decide, by decide, by decide⟩⟩

theorem bulk_moves_three : BulkOp.listInsertListTail.Moves threeLists 10 1 [11, 12] [2] ∧
    BulkOp.listRetrieveAllItems.Moves threeLists 10 20 [11, 12] [] ∧
    ¬ BulkOp.listInsertList.Moves threeLists 10 1 [11, 12] [2] := by
  obtain ⟨h₁₀, h₁, h₂₀⟩ := threeLists_ring
  have hmoves := fun op hdest => @bulk_moves_iff Nat _ threeLists [11, 12] [2] 10 1 h₁₀ h₁ (by decide) op hdest
  refine ⟨(hmoves .listInsertListTail (fun h => by cases h)).mpr (.inl rfl),
    (@bulk_moves_iff Nat _ threeLists [11, 12] [] 10 20 h₁₀ h₂₀ (by decide) .listRetrieveAllItems fun _ => rfl).mpr
      (.inr ⟨rfl, by decide⟩), fun h => ?_⟩
  rcases (hmoves .listInsertList fun h => by cases h).mp h with hop | ⟨hop, -⟩ <;> cases hop

/-- A single node that is inserted after another one points to itself as before. -/
theorem inserted_list_lost :
    ¬ ∀ (L : Links Nat) (list w : Nat) (xs ys : List Nat) (op : BulkOp), L.Ring list xs → L.Ring w ys →
      (∀ u ∈ list :: xs, u ∉ w :: ys) → (op = .listRetrieveAllItems → ys = []) → op.Moves L list w xs ys := by
  intro h
  have hring := h ⟨id, id⟩ 1 0 [] [] .listInsertList ((rings_single Nat).ring 1 [] rfl) ((rings_single Nat).ring 0 [] rfl)
    (by decide) (fun hop => by cases hop)
  have hnext : (listInsertList ⟨id, id⟩ 1 0).next 1 = 0 := hring.seg.2.1
  exact absurd hnext (by decide)

end ListOps
end DoubleTake
