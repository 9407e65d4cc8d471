import Mathlib.Data.List.Range
import Mathlib.Data.List.Perm.Subperm
import DoubleTake.SyncVars

/-! What is on the three lists of the entries of synchronization variables, after any sequence of initializations, uses,
    destructions and begins of an epoch. -/

namespace DoubleTake

open Transition CircularList

namespace SyncList

variable {l l' : SyncList}

theorem offset_lt (l : SyncList) : l.offset < SYNC_ENTRY_SIZE := by
  cases l <;> decide

theorem offset_inj (h : l.offset = l'.offset) : l = l' := by
  cases l <;> cases l' <;> first | rfl | exact absurd h (by decide)

end SyncList

namespace XSync

variable {s t : XSync} {L : Links SyncNode} {lists : SyncList → List Nat} {all all' : List Nat} {l l' : SyncList}
  {a b e size : Nat} {entry : SyncEntry}

/-! ### The lists -/

/-- No two of the entries overlap. -/
def Apart (all : List Nat) : Prop := ∀ a ∈ all, ∀ b ∈ all, a ≠ b → a + SYNC_ENTRY_SIZE ≤ b ∨ b + SYNC_ENTRY_SIZE ≤ a

theorem Apart.node_inj (h : Apart all) (ha : a ∈ all) (hb : b ∈ all) (heq : l.node a = l'.node b) : a = b ∧ l = l' := by
  have heq : a + l.offset = b + l'.offset := SyncNode.mem.inj heq
  have hl := l.offset_lt
  have hl' := l'.offset_lt
  have hab : a = b := by
    by_contra hne
    rcases h a ha b hb hne with hlt | hlt <;> omega
  exact ⟨hab, SyncList.offset_inj (by omega)⟩

/-- The three lists, of entries that do not overlap. -/
structure Threaded (L : Links SyncNode) (lists : SyncList → List Nat) (all : List Nat) : Prop where
  ring : ∀ l, L.Ring (.head l) ((lists l).map l.node)
  apart : Apart all
  sub : ∀ l, lists l ⊆ all

theorem Threaded.nodup (h : Threaded L lists all) (l : SyncList) : (lists l).Nodup :=
  List.Nodup.of_map _ (List.nodup_cons.mp (h.ring l).nodup).2

theorem Threaded.notMem_node (h : Threaded L lists all) (he : e ∈ all) (hnot : e ∉ lists l) :
    l.node e ∉ SyncNode.head l :: (lists l).map l.node := by
  intro hmem
  rcases List.mem_cons.mp hmem with heq | hmem
  · cases heq
  · obtain ⟨b, hb, heq⟩ := List.mem_map.mp hmem
    obtain ⟨rfl, -⟩ := h.apart.node_inj (h.sub l hb) he heq
    exact hnot hb

/-- A node of another list is not on this one, and is not the node of an entry for this one. -/
theorem Threaded.other (h : Threaded L lists all) (hne : l' ≠ l) {u : SyncNode}
    (hu : u ∈ SyncNode.head l' :: (lists l').map l'.node) :
    u ∉ SyncNode.head l :: (lists l).map l.node ∧ ∀ e ∈ all, u ≠ l.node e := by
  have hnode : ∀ e ∈ all, u ≠ l.node e := by
    rintro e he rfl
    rcases List.mem_cons.mp hu with heq | hmem
    · cases heq
    · obtain ⟨b, hb, heq⟩ := List.mem_map.mp hmem
      exact hne (h.apart.node_inj (h.sub l' hb) he heq).2
  refine ⟨fun hmem => ?_, hnode⟩
  rcases List.mem_cons.mp hmem with rfl | hmem
  · rcases List.mem_cons.mp hu with heq | hmem'
    · cases heq
      exact hne rfl
    · obtain ⟨b, -, heq⟩ := List.mem_map.mp hmem'
      cases heq
  · obtain ⟨b, hb, rfl⟩ := List.mem_map.mp hmem
    exact hnode b (h.sub l hb) rfl

/-- One of the lists gets other nodes, and the nodes of the others are untouched. -/
theorem Threaded.update {L' : Links SyncNode} {es : List Nat} (h : Threaded L lists all) (hsub : es ⊆ all)
    (hring : L'.Ring (.head l) (es.map l.node))
    (hframe : ∀ u, u ∉ SyncNode.head l :: (lists l).map l.node → (∀ e ∈ all, u ≠ l.node e) →
      L'.next u = L.next u ∧ L'.prev u = L.prev u) :
    Threaded L' (Function.update lists l es) all := by
  refine ⟨fun l' => ?_, h.apart, fun l' => ?_⟩
  · by_cases hne : l' = l
    · subst hne
      rw [Function.update_self]
      exact hring
    · rw [Function.update_of_ne hne]
      refine (h.ring l').frame fun u hu => ?_
      obtain ⟨hnot, hnode⟩ := h.other hne hu
      exact hframe u hnot hnode
  · by_cases hne : l' = l
    · subst hne
      rw [Function.update_self]
      exact hsub
    · rw [Function.update_of_ne hne]
      exact h.sub l'

theorem Threaded.insertTail (h : Threaded L lists all) (he : e ∈ all) (hnot : e ∉ lists l) :
    Threaded (L.insertTail (l.node e) (.head l)) (Function.update lists l (lists l ++ [e])) all := by
  refine h.update (fun b hb => ?_) ?_ fun u hu hnode => insertTail_frame (h.ring l) hu (hnode e he)
  · rcases List.mem_append.mp hb with hb | hb
    · exact h.sub l hb
    · rw [List.mem_singleton.mp hb]
      exact he
  · rw [List.map_append]
    exact (h.ring l).insertTail (h.notMem_node he hnot)

theorem Threaded.removeNode (h : Threaded L lists all) (he : e ∈ lists l) :
    Threaded (L.removeNode (l.node e)) (Function.update lists l ((lists l).erase e)) all := by
  obtain ⟨as, bs, heq⟩ := List.append_of_mem he
  have hnot : e ∉ as := by
    have hnodup := h.nodup l
    rw [heq] at hnodup
    exact fun hmem => (List.nodup_middle.mp hnodup).notMem (List.mem_append_left _ hmem)
  have herase : (lists l).erase e = as ++ bs := by
    rw [heq, List.erase_append_right _ hnot, List.erase_cons_head]
  have hring := h.ring l
  rw [heq, List.map_append, List.map_cons] at hring
  refine h.update (fun b hb => h.sub l (List.mem_of_mem_erase hb)) ?_ fun u hu _ => removeNode_frame hring ?_
  · rw [herase, List.map_append]
    exact hring.removeNode
  · rw [heq, List.map_append, List.map_cons] at hu
    exact hu

theorem Threaded.listInit (h : Threaded L lists all) : Threaded (L.nodeInit (.head l)) (Function.update lists l []) all :=
  h.update (List.nil_subset all) nodeInit_ring fun _ hu _ => nodeInit_frame (List.ne_of_not_mem_cons hu)

/-- The same lists among other entries. -/
theorem Threaded.among (h : Threaded L lists all) (hapart : Apart all') (hsub : ∀ l, lists l ⊆ all') :
    Threaded L lists all' := ⟨h.ring, hapart, hsub⟩

theorem Threaded.congr {lists' : SyncList → List Nat} (h : Threaded L lists all) (heq : ∀ l, lists' l = lists l) :
    Threaded L lists' all := by
  rw [funext heq]
  exact h

theorem Threaded.isListEmpty (h : Threaded s.links lists all) : s.isListEmpty l = true ↔ lists l = [] := by
  rw [XSync.isListEmpty, beq_iff_eq, (h.ring l).next_eq_head, List.map_eq_nil_iff]

/-- What a search of the list starts with: the first node, and the last one to stop at. -/
theorem Threaded.ends {es : List Nat} (h : Threaded L lists all) (heq : lists l = e :: es) :
    L.next (.head l) = l.node e ∧ L.prev (.head l) = l.node ((e :: es).getLast (List.cons_ne_nil e es)) ∧
      L.Seg (l.node e) (es.map l.node) (.head l) := by
  have hring := h.ring l
  rw [heq, List.map_cons] at hring
  refine ⟨hring.seg.1.1, ?_, hring.seg.2⟩
  rw [hring.seg.2.prev_eq_getLast]
  exact List.getLast_map (f := l.node) (l := e :: es) (List.cons_ne_nil _ _)

/-! ### The internal heap -/

/-- The blocks are in the heap and do not overlap. -/
structure HeapOk (s : XSync) : Prop where
  inside : ∀ a block, s.blocks a = some block → INTERNAL_HEAP_BASE ≤ a ∧ a + block.size ≤ INTERNAL_HEAP_END
  disjoint : ∀ a b block block', s.blocks a = some block → s.blocks b = some block' → a ≠ b →
    a + block.size ≤ b ∨ b + block'.size ≤ a

theorem entry_eq_some : s.entry a = some entry ↔ s.blocks a = some (.syncEntry entry) := by
  rw [XSync.entry]
  cases s.blocks a with
  | none => simp
  | some block => cases block <;> simp

theorem HeapOk.apart (h : HeapOk s) (hall : ∀ e ∈ all, ∃ entry, s.entry e = some entry) : Apart all := by
  intro a ha b hb hne
  obtain ⟨x, hx⟩ := hall a ha
  obtain ⟨y, hy⟩ := hall b hb
  exact h.disjoint a b _ _ (entry_eq_some.mp hx) (entry_eq_some.mp hy) hne

theorem HeapOk.malloc (h : HeapOk s) (block : InternalBlock) (ha : s.allocates a block.size)
    (ht : t.blocks = Function.update s.blocks a (some block)) : HeapOk t := by
  obtain ⟨hbase, hend, hfree⟩ := ha
  have hblocks : ∀ b x, t.blocks b = some x → b = a ∧ x = block ∨ b ≠ a ∧ s.blocks b = some x := by
    intro b x hb
    rw [ht] at hb
    by_cases hba : b = a
    · subst hba
      rw [Function.update_self] at hb
      exact .inl ⟨rfl, (Option.some.inj hb).symm⟩
    · rw [Function.update_of_ne hba] at hb
      exact .inr ⟨hba, hb⟩
  constructor
  · intro b x hb
    rcases hblocks b x hb with ⟨rfl, rfl⟩ | ⟨-, hb⟩
    · exact ⟨hbase, hend⟩
    · exact h.inside b x hb
  · intro b c x y hb hc hne
    rcases hblocks b x hb with ⟨rfl, rfl⟩ | ⟨-, hb⟩ <;> rcases hblocks c y hc with ⟨rfl, rfl⟩ | ⟨-, hc⟩
    · exact absurd rfl hne
    · exact hfree c y hc
    · exact (hfree b x hb).symm
    · exact h.disjoint b c x y hb hc hne

theorem HeapOk.free (h : HeapOk s) (ht : ∀ a block, t.blocks a = some block → s.blocks a = some block) : HeapOk t :=
  ⟨fun a x ha => h.inside a x (ht a x ha), fun a b x y ha hb => h.disjoint a b x y (ht a x ha) (ht b y hb)⟩

theorem entry_congr (h : t.blocks a = s.blocks a) : t.entry a = s.entry a := by
  rw [XSync.entry, XSync.entry, h]

/-- There is no entry where the heap gives a block. -/
theorem entry_of_allocates (h : s.allocates a size) (hsize : 0 < size) : s.entry a = none := by
  cases hentry : s.entry a with
  | none => rfl
  | some entry =>
    have hpos : 0 < SYNC_ENTRY_SIZE := by decide
    rcases h.2.2 a _ (entry_eq_some.mp hentry) with hle | hle
    · omega
    · have hle : a + SYNC_ENTRY_SIZE ≤ a := hle
      omega

/-! ### The operations -/

/-- The lists of the entries: whatever is on one of them is on `_activeList`, in a block of its own. -/
structure Lists (s : XSync) (lists : SyncList → List Nat) : Prop where
  ring : ∀ l, s.links.Ring (.head l) ((lists l).map l.node)
  sub : ∀ l, lists l ⊆ lists .activeList
  allocated : ∀ e ∈ lists .activeList, ∃ entry, s.entry e = some entry
  heap : HeapOk s

theorem Lists.threaded (h : Lists s lists) : Threaded s.links lists (lists .activeList) :=
  ⟨h.ring, h.heap.apart h.allocated, h.sub⟩

theorem Lists.initialized : Lists .initialized fun _ => [] := by
  refine ⟨fun l => ⟨List.nodup_singleton _, rfl, rfl⟩, fun l => List.Subset.refl _, ?_, ⟨?_, ?_⟩⟩
  · intro e he
    cases he
  · intro a block ha
    cases ha
  · intro a b block block' ha
    cases ha

theorem Lists.length_le (h : Lists s lists) (l : SyncList) : (lists l).length ≤ HashMap.INTERNAL_HEAP_SIZE := by
  have hsub : lists l ⊆ List.range' INTERNAL_HEAP_BASE HashMap.INTERNAL_HEAP_SIZE := by
    intro e he
    obtain ⟨entry, hentry⟩ := h.allocated e (h.sub l he)
    obtain ⟨hbase, hend⟩ := h.heap.inside e _ (entry_eq_some.mp hentry)
    have hpos : 0 < SYNC_ENTRY_SIZE := by decide
    have hend : e + SYNC_ENTRY_SIZE ≤ INTERNAL_HEAP_BASE + HashMap.INTERNAL_HEAP_SIZE := hend
    exact List.mem_range'_1.mpr ⟨hbase, by omega⟩
  have hle := ((h.threaded.nodup l).subperm hsub).length_le
  rw [List.length_range'] at hle
  exact hle

theorem Lists.congr {lists' : SyncList → List Nat} (h : Lists s lists) (heq : ∀ l, lists' l = lists l) : Lists s lists' := by
  rw [funext heq]
  exact h

/-- Other blocks come and go. -/
theorem Lists.frame (h : Lists s lists) (hlinks : t.links = s.links)
    (hentry : ∀ e ∈ lists .activeList, t.entry e = s.entry e) (hheap : HeapOk t) : Lists t lists := by
  refine ⟨fun l => hlinks ▸ h.ring l, h.sub, fun e he => ?_, hheap⟩
  rw [hentry e he]
  exact h.allocated e he

/-- The heap gives what is not an entry. -/
theorem Lists.ne_of_allocates (h : Lists s lists) (ha : s.allocates a size) (hsize : 0 < size) :
    ∀ e ∈ lists .activeList, e ≠ a := by
  rintro e he rfl
  obtain ⟨entry, hentry⟩ := h.allocated e he
  rw [entry_of_allocates ha hsize] at hentry
  cases hentry

theorem recordSyncVar_entry {type : ThreadInfo.SyncVariableType} {nominal real list : Nat} (b : Nat) :
    (s.recordSyncVar e type nominal real list).entry b = if b = e then some ⟨type, nominal, real, list⟩ else s.entry b := by
  split
  · rename_i heq
    subst heq
    exact entry_eq_some.mpr (Function.update_self ..)
  · rename_i hne
    exact entry_congr (Function.update_of_ne hne _ _)

/-- A new entry is at the end of `_activeList` and of `_newList`. -/
theorem Lists.recordSyncVar {type : ThreadInfo.SyncVariableType} {nominal real list : Nat} (h : Lists s lists)
    (he : s.allocates e SYNC_ENTRY_SIZE) :
    Lists (s.recordSyncVar e type nominal real list)
      (Function.update (Function.update lists .activeList (lists .activeList ++ [e])) .newList (lists .newList ++ [e])) := by
  have hnot : ∀ l, e ∉ lists l := fun l hmem => h.ne_of_allocates he (by decide) e (h.sub l hmem) rfl
  have hheap : HeapOk (s.recordSyncVar e type nominal real list) :=
    h.heap.malloc (.syncEntry ⟨type, nominal, real, list⟩) he rfl
  have hall : ∀ b ∈ lists .activeList ++ [e], ∃ entry, (s.recordSyncVar e type nominal real list).entry b = some entry := by
    intro b hb
    rw [recordSyncVar_entry]
    split
    · exact ⟨_, rfl⟩
    · rename_i hne
      rcases List.mem_append.mp hb with hb | hb
      · exact h.allocated b hb
      · exact absurd (List.mem_singleton.mp hb) hne
  have hmem : e ∈ lists .activeList ++ [e] := List.mem_append_right _ (List.mem_singleton_self e)
  have hold : Threaded s.links lists (lists .activeList ++ [e]) :=
    h.threaded.among (hheap.apart hall) fun l b hb => List.mem_append_left _ (h.sub l hb)
  have hactive := hold.insertTail hmem (hnot .activeList)
  have hnew := hactive.insertTail (l := .newList) hmem (by
    rw [Function.update_of_ne (by decide)]
    exact hnot .newList)
  rw [Function.update_of_ne (by decide : SyncList.newList ≠ .activeList)] at hnew
  have hactive_eq : Function.update (Function.update lists .activeList (lists .activeList ++ [e])) .newList
      (lists .newList ++ [e]) .activeList = lists .activeList ++ [e] := by
    rw [Function.update_of_ne (by decide), Function.update_self]
  exact ⟨hnew.ring, fun l => by rw [hactive_eq]; exact hnew.sub l, by rw [hactive_eq]; exact hall, hheap⟩

theorem Lists.deferSync (h : Lists s lists) (he : e ∈ lists .activeList) (hnot : e ∉ lists .delList) :
    ∃ t, s.deferSync e = some t ∧ Lists t (Function.update lists .delList (lists .delList ++ [e])) ∧ t.blocks = s.blocks := by
  obtain ⟨entry, hentry⟩ := h.allocated e he
  have hring := h.threaded.insertTail he hnot
  have hactive_eq : Function.update lists .delList (lists .delList ++ [e]) .activeList = lists .activeList :=
    Function.update_of_ne (by decide) _ _
  refine ⟨s.insertTail .delList e, by rw [XSync.deferSync, hentry], ⟨hring.ring, fun l => ?_, ?_, ?_⟩, rfl⟩
  · rw [hactive_eq]
    exact hring.sub l
  · rw [hactive_eq]
    exact h.allocated
  · exact h.heap.free fun a block ha => ha

theorem entryOf_node (s : XSync) (l : SyncList) (e : Nat) : s.entryOf l (l.node e) = (s.entry e).map fun entry => (e, entry) := by
  rw [SyncList.node, XSync.entryOf, Nat.add_sub_cancel]

/-! ### The begin of an epoch -/

/-- The lists without the entries that were destroyed. -/
def remaining (lists : SyncList → List Nat) : SyncList → List Nat
  | .activeList => (lists .activeList).filter (· ∉ lists .delList)
  | .newList | .delList => []

/-- One round of the loop over `_delList`: an entry is taken out of two lists and freed. -/
theorem Threaded.freed {es : List Nat} (h : Threaded s.links lists all) (hdel : lists .delList = e :: es)
    (he : e ∈ lists .activeList) :
    Threaded (((s.removeNode .delList e).removeNode .activeList e).freeSyncEntry e).links
      (Function.update (Function.update lists .delList es) .activeList ((lists .activeList).erase e)) all := by
  have hmem : e ∈ lists .delList := by
    rw [hdel]
    exact List.mem_cons_self
  have hfirst := h.removeNode hmem
  rw [hdel, List.erase_cons_head] at hfirst
  have hactive : Function.update lists .delList es .activeList = lists .activeList := Function.update_of_ne (by decide) _ _
  have hsecond := hfirst.removeNode (l := .activeList) (by rw [hactive]; exact he)
  rw [hactive] at hsecond
  exact hsecond

theorem delLoop_spec {es : List Nat} {fuel : Nat} (h : Threaded s.links lists all) (hdel : lists .delList = e :: es)
    (hsub : lists .delList ⊆ lists .activeList) (halloc : ∀ a ∈ e :: es, ∃ entry, s.entry a = some entry)
    (hfuel : (e :: es).length ≤ fuel) :
    ∃ t, delLoop (SyncList.delList.node ((e :: es).getLast (List.cons_ne_nil e es))) fuel (SyncList.delList.node e) s =
        some (e :: es, t) ∧
      Threaded t.links (Function.update (Function.update lists .delList []) .activeList
        ((lists .activeList).filter (· ∉ e :: es))) all ∧
      (∀ a, t.blocks a = if a ∈ e :: es then none else s.blocks a) ∧ t.events = s.events := by
  induction es generalizing s lists e fuel with
  | nil =>
    obtain ⟨fuel, rfl⟩ : ∃ n, fuel = n + 1 := Nat.exists_eq_add_one.mpr hfuel
    obtain ⟨entry, hentry⟩ := halloc e List.mem_cons_self
    have he : e ∈ lists .activeList := hsub (by rw [hdel]; exact List.mem_cons_self)
    refine ⟨((s.removeNode .delList e).removeNode .activeList e).freeSyncEntry e, ?_, ?_, fun a => ?_, rfl⟩
    · rw [delLoop, entryOf_node, hentry]
      exact if_pos rfl
    · have hfreed := h.freed hdel he
      rw [(h.nodup .activeList).erase_eq_filter] at hfreed
      have hfilter : (lists .activeList).filter (· ∉ [e]) = (lists .activeList).filter (· != e) :=
        List.filter_congr fun a _ => by by_cases hae : a = e <;> simp [hae]
      rw [hfilter]
      exact hfreed
    · show Function.update s.blocks e none a = _
      by_cases hae : a = e
      · subst hae
        rw [Function.update_self, if_pos List.mem_cons_self]
      · rw [Function.update_of_ne hae, if_neg (by simpa using hae)]
  | cons b es ih =>
    obtain ⟨fuel, rfl⟩ : ∃ n, fuel = n + 1 := Nat.exists_eq_add_one.mpr (Nat.lt_of_lt_of_le (Nat.succ_pos _) hfuel)
    obtain ⟨entry, hentry⟩ := halloc e List.mem_cons_self
    have he : e ∈ lists .activeList := hsub (by rw [hdel]; exact List.mem_cons_self)
    have hnodup := h.nodup .delList
    rw [hdel] at hnodup
    obtain ⟨hnot, -⟩ := List.nodup_cons.mp hnodup
    -- the next node was read before `e` is taken out
    have hnext : s.links.next (SyncList.delList.node e) = SyncList.delList.node b := (h.ends hdel).2.2.1.1
    have hlast : SyncList.delList.node e ≠ SyncList.delList.node ((b :: es).getLast (List.cons_ne_nil b es)) := by
      intro heq
      have hmem : ∀ a ∈ e :: b :: es, a ∈ all := fun a ha => h.sub .delList (hdel ▸ ha)
      have hin := List.getLast_mem (List.cons_ne_nil b es)
      obtain ⟨heq, -⟩ := h.apart.node_inj (hmem e List.mem_cons_self) (hmem _ (List.mem_cons_of_mem _ hin)) heq
      exact hnot (heq ▸ hin)
    let s₁ := ((s.removeNode .delList e).removeNode .activeList e).freeSyncEntry e
    have h₁ : Threaded s₁.links _ all := h.freed hdel he
    have hdel₁ : Function.update (Function.update lists .delList (b :: es)) .activeList ((lists .activeList).erase e) .delList =
        b :: es := by
      rw [Function.update_of_ne (by decide), Function.update_self]
    have hactive₁ : Function.update (Function.update lists .delList (b :: es)) .activeList ((lists .activeList).erase e)
        .activeList = (lists .activeList).erase e := Function.update_self ..
    have hne : ∀ a ∈ b :: es, a ≠ e := by
      rintro a ha rfl
      exact hnot ha
    obtain ⟨t, hloop, hthreaded, hblocks, hevents⟩ := ih h₁ hdel₁ (by
        rw [hdel₁, hactive₁]
        exact fun a ha => (List.mem_erase_of_ne (hne a ha)).mpr (hsub (by rw [hdel]; exact List.mem_cons_of_mem _ ha)))
      (fun a ha => by
        rw [entry_congr (t := s₁) (s := s) (Function.update_of_ne (hne a ha) _ _)]
        exact halloc a (List.mem_cons_of_mem _ ha)) (Nat.le_of_succ_le_succ hfuel)
    refine ⟨t, ?_, ?_, fun a => ?_, hevents⟩
    · rw [List.getLast_cons (List.cons_ne_nil b es), delLoop, entryOf_node, hentry]
      show (if SyncList.delList.node e = _ then _ else _) = _
      rw [if_neg hlast, hnext]
      show Option.map _ (delLoop _ _ _ s₁) = _
      rw [hloop]
      rfl
    · rw [hactive₁, (h.nodup .activeList).erase_eq_filter, List.filter_filter] at hthreaded
      have hfilter : (lists .activeList).filter (· ∉ e :: b :: es) =
          (lists .activeList).filter fun a => decide (a ∉ b :: es) && a != e := by
        refine List.filter_congr fun a _ => ?_
        by_cases hae : a = e <;> simp [hae]
      rw [hfilter]
      refine hthreaded.congr fun l => ?_
      cases l <;> rfl
    · rw [hblocks]
      show (if a ∈ b :: es then none else Function.update s.blocks e none a) = _
      by_cases hae : a = e
      · subst hae
        rw [if_neg hnot, Function.update_self, if_pos List.mem_cons_self]
      · rw [Function.update_of_ne hae]
        exact if_congr (by simp [hae]) rfl rfl

theorem update_nil {events : Nat → List Nat} {list k : Nat} (h : events list = []) : Function.update events k [] list = [] := by
  rw [Function.update_apply]
  split
  · rfl
  · exact h

theorem activeLoop_spec {es : List Nat} {fuel : Nat}
    (hseg : s.links.Seg (SyncList.activeList.node e) (es.map SyncList.activeList.node) (.head .activeList))
    (hnodup : (e :: es).Nodup) (halloc : ∀ a ∈ e :: es, ∃ entry, s.entry a = some entry) (hfuel : (e :: es).length ≤ fuel) :
    ∃ t, activeLoop (SyncList.activeList.node ((e :: es).getLast (List.cons_ne_nil e es))) fuel (SyncList.activeList.node e) s =
        some t ∧
      t.links = s.links ∧ t.blocks = s.blocks ∧ (∀ a ∈ e :: es, ∀ entry, s.entry a = some entry → t.events entry.syncevents = []) ∧
      ∀ list, s.events list = [] → t.events list = [] := by
  induction es generalizing s e fuel with
  | nil =>
    obtain ⟨fuel, rfl⟩ : ∃ n, fuel = n + 1 := Nat.exists_eq_add_one.mpr hfuel
    obtain ⟨entry, hentry⟩ := halloc e List.mem_cons_self
    refine ⟨{ s with events := Function.update s.events entry.syncevents [] }, ?_, rfl, rfl, fun a ha entry' ha' => ?_,
      fun list hlist => ?_⟩
    · rw [activeLoop, entryOf_node, hentry]
      exact if_pos rfl
    · rw [List.mem_singleton.mp ha, hentry] at ha'
      cases ha'
      exact Function.update_self ..
    · exact update_nil hlist
  | cons b es ih =>
    obtain ⟨fuel, rfl⟩ : ∃ n, fuel = n + 1 := Nat.exists_eq_add_one.mpr (Nat.lt_of_lt_of_le (Nat.succ_pos _) hfuel)
    obtain ⟨entry, hentry⟩ := halloc e List.mem_cons_self
    obtain ⟨hnot, hnodup⟩ := List.nodup_cons.mp hnodup
    have hlast : SyncList.activeList.node e ≠ SyncList.activeList.node ((b :: es).getLast (List.cons_ne_nil b es)) := by
      intro heq
      have heq : e = (b :: es).getLast (List.cons_ne_nil b es) := SyncNode.mem.inj heq
      exact hnot (heq ▸ List.getLast_mem (List.cons_ne_nil b es))
    let s₁ := { s with events := Function.update s.events entry.syncevents [] }
    obtain ⟨t, hloop, hlinks, hblocks, hevents, hkeep⟩ := ih (s := s₁) hseg.2 hnodup
      (fun a ha => halloc a (List.mem_cons_of_mem _ ha)) (Nat.le_of_succ_le_succ hfuel)
    refine ⟨t, ?_, hlinks, hblocks, fun a ha entry' ha' => ?_, fun list hlist => hkeep list (update_nil hlist)⟩
    · rw [List.getLast_cons (List.cons_ne_nil b es), activeLoop, entryOf_node, hentry]
      show (if SyncList.activeList.node e = _ then _ else _) = _
      rw [if_neg hlast, hseg.1.1]
      exact hloop
    · rcases List.mem_cons.mp ha with rfl | ha
      · rw [hentry] at ha'
        cases ha'
        exact hkeep _ (Function.update_self ..)
      · exact hevents a ha entry' ha'

theorem cleanupDelList_spec (h : Lists s lists) :
    ∃ t, s.cleanupDelList = some (lists .delList, t) ∧
      Threaded t.links (Function.update (Function.update lists .delList []) .activeList
        ((lists .activeList).filter (· ∉ lists .delList))) (lists .activeList) ∧
      (∀ a, t.blocks a = if a ∈ lists .delList then none else s.blocks a) ∧ t.events = s.events := by
  have hempty := h.threaded.isListEmpty (l := .delList)
  rw [cleanupDelList]
  cases hdel : lists .delList with
  | nil =>
    rw [if_pos (hempty.mpr hdel)]
    refine ⟨s, rfl, h.threaded.congr fun l => ?_, fun a => (if_neg List.not_mem_nil).symm, rfl⟩
    cases l with
    | activeList =>
      rw [Function.update_self]
      exact List.filter_eq_self.mpr (by simp)
    | newList => rfl
    | delList => exact hdel.symm
  | cons e es =>
    have hne : ¬ s.isListEmpty .delList = true := by
      rw [hempty, hdel]
      exact List.cons_ne_nil e es
    obtain ⟨hfirst, hlast, -⟩ := h.threaded.ends hdel
    rw [if_neg hne, hfirst, hlast]
    refine delLoop_spec h.threaded hdel (h.sub .delList) (fun a ha => h.allocated a (h.sub .delList (hdel ▸ ha))) ?_
    rw [← hdel]
    exact h.length_le .delList

theorem cleanupEvents_spec (h : Lists s lists) :
    ∃ t, s.cleanupEvents = some t ∧ t.links = s.links ∧ t.blocks = s.blocks ∧
      ∀ a ∈ lists .activeList, ∀ entry, s.entry a = some entry → t.events entry.syncevents = [] := by
  have hempty := h.threaded.isListEmpty (l := .activeList)
  rw [cleanupEvents]
  cases hactive : lists .activeList with
  | nil =>
    rw [if_pos (hempty.mpr hactive)]
    refine ⟨s, rfl, rfl, rfl, fun a ha => ?_⟩
    cases ha
  | cons e es =>
    have hne : ¬ s.isListEmpty .activeList = true := by
      rw [hempty, hactive]
      exact List.cons_ne_nil e es
    obtain ⟨hfirst, hlast, hseg⟩ := h.threaded.ends hactive
    have hnodup := h.threaded.nodup .activeList
    have hlen := h.length_le .activeList
    rw [hactive] at hnodup hlen
    rw [if_neg hne, hfirst, hlast]
    obtain ⟨t, hloop, hlinks, hblocks, hevents, -⟩ :=
      activeLoop_spec hseg hnodup (fun a ha => h.allocated a (hactive ▸ ha)) hlen
    exact ⟨t, hloop, hlinks, hblocks, hevents⟩

/-- The entries on `_delList` are freed, each once; the others stay on `_activeList`, and their events are gone. -/
theorem Lists.epochBegin (h : Lists s lists) :
    ∃ t, s.epochBegin = some (lists .delList, t) ∧ Lists t (remaining lists) ∧
      (∀ a, t.blocks a = if a ∈ lists .delList then none else s.blocks a) ∧
      ∀ a ∈ remaining lists .activeList, ∀ entry, t.entry a = some entry → t.events entry.syncevents = [] := by
  obtain ⟨s₁, hdel, hthreaded, hblocks, -⟩ := cleanupDelList_spec h
  have hmem : ∀ {a}, a ∈ remaining lists .activeList → a ∈ lists .activeList ∧ a ∉ lists .delList := by
    intro a ha
    obtain ⟨ha, hnot⟩ := List.mem_filter.mp ha
    exact ⟨ha, of_decide_eq_true hnot⟩
  have hentry : ∀ a ∈ remaining lists .activeList, s₁.entry a = s.entry a := fun a ha =>
    entry_congr ((hblocks a).trans (if_neg (hmem ha).2))
  have hinit : Threaded (s₁.listInit .newList).links (remaining lists) (lists .activeList) :=
    (hthreaded.listInit (l := .newList)).congr fun l => by cases l <;> rfl
  have hlists : Lists (s₁.listInit .newList) (remaining lists) := by
    refine ⟨hinit.ring, fun l => ?_, fun e he => ?_, h.heap.free fun a block ha => ?_⟩
    · cases l with
      | activeList => exact List.Subset.refl _
      | newList => exact List.nil_subset _
      | delList => exact List.nil_subset _
    · obtain ⟨entry, he'⟩ := h.allocated e (hmem he).1
      exact ⟨entry, (hentry e he).trans he'⟩
    · have ha : s₁.blocks a = some block := ha
      rw [hblocks] at ha
      split at ha
      · cases ha
      · exact ha
  obtain ⟨t, hclean, hlinks, hblocks', hevents⟩ := cleanupEvents_spec hlists
  have hentry' : ∀ a, t.entry a = (s₁.listInit .newList).entry a := fun a => entry_congr (congrFun hblocks' a)
  refine ⟨t, ?_, ⟨?_, hlists.sub, ?_, ?_⟩, fun a => ?_, fun a ha entry ha' => ?_⟩
  · rw [XSync.epochBegin, hdel]
    show Option.map _ (s₁.listInit .newList).cleanupEvents = _
    rw [hclean]
    rfl
  · rw [hlinks]
    exact hlists.ring
  · intro e he
    rw [hentry']
    exact hlists.allocated e he
  · exact hlists.heap.free fun a block ha => by rwa [hblocks'] at ha
  · rw [hblocks']
    exact hblocks a
  · rw [hentry'] at ha'
    exact hevents a ha entry ha'

end XSync

namespace SyncVars

open XSync

variable {s t : SyncVars} {type : ThreadInfo.SyncVariableType} {v real e : Nat} {swapped : Bool}

theorem realSize_pos (type : ThreadInfo.SyncVariableType) : 0 < type.realSize + SYNC_EVENT_LIST_SIZE :=
  Nat.add_pos_right _ (by decide)

theorem init_eq_some (h : s.init type v real e swapped = some t) : t = (s.varInit type v real e swapped).2 := by
  cases type with
  | mutex => exact (Option.some.inj h).symm
  | cond => exact (Option.some.inj h).symm
  | barrier =>
    have h : s.barrierInit v real e swapped = some t := h
    rw [barrierInit] at h
    split at h
    · cases h
    · exact (Option.some.inj h).symm
  | thread => cases h

theorem init_isSome (hthread : type ≠ .thread) (hbarrier : type = .barrier → swapped = true) :
    ∃ t, s.init type v real e swapped = some t := by
  cases type with
  | mutex => exact ⟨_, rfl⟩
  | cond => exact ⟨_, rfl⟩
  | barrier =>
    rw [hbarrier rfl]
    exact ⟨_, rfl⟩
  | thread => exact absurd rfl hthread

/-- A variable is used: either it has its real variable, or it is initialized now. -/
theorem use_cases (h : s.use type v real e swapped = some t) :
    isInvalidSyncVar (s.real v) = false ∧ t = s ∨
      isInvalidSyncVar (s.real v) = true ∧ t = (s.varInit type v real e swapped).2 := by
  rw [use] at h
  split at h
  · rename_i hinvalid
    exact .inr ⟨hinvalid, init_eq_some h⟩
  · rename_i hvalid
    exact .inl ⟨Bool.eq_false_iff.mpr hvalid, (Option.some.inj h).symm⟩

theorem use_isSome (htype : type = .mutex ∨ type = .cond) : ∃ t, s.use type v real e swapped = some t := by
  rw [use]
  split
  · rcases htype with rfl | rfl
    · exact ⟨_, rfl⟩
    · exact ⟨_, rfl⟩
  · exact ⟨s, rfl⟩

namespace Run

variable {s t : Run}

/-- What is on the lists. -/
def lists (s : Run) : SyncList → List Nat
  | .activeList => s.recorded
  | .newList => s.fresh
  | .delList => s.destroyed

/-- The entry of a variable that can be used is its own, and has not been destroyed. -/
structure Inv (s : Run) : Prop where
  lists : Lists s.xsync s.lists
  static : ∀ v, s.phase v = .static → s.syncentry v = 0
  ready : ∀ v e, s.phase v = .ready e → s.syncentry v = e ∧ e ∈ s.recorded ∧ e ∉ s.destroyed ∧
    ∃ entry, s.xsync.entry e = some entry ∧ entry.nominal = v

/-- There is no entry at the null pointer. -/
theorem Inv.null (h : Inv s) : s.xsync.entry 0 = none := by
  cases hentry : s.xsync.entry 0 with
  | none => rfl
  | some entry =>
    obtain ⟨hbase, -⟩ := h.lists.heap.inside 0 _ (entry_eq_some.mp hentry)
    exact absurd hbase (by decide)

theorem Inv.started (real syncentry : Nat → Nat) : Inv (started real syncentry) := by
  refine ⟨Lists.initialized.congr fun l => by cases l <;> rfl, ?_, ?_⟩
  · intro v h
    cases h
  · intro v e h
    cases h

/-- The steps of the variables themselves leave the entries as they are. -/
theorem Inv.frame (h : Inv s) (hlists : ∀ l, t.lists l = s.lists l) (hlinks : t.xsync.links = s.xsync.links)
    (hentry : ∀ e ∈ s.recorded, t.xsync.entry e = s.xsync.entry e) (hheap : HeapOk t.xsync)
    (hstatic : ∀ v, t.phase v = .static → t.syncentry v = 0)
    (hready : ∀ v e, t.phase v = .ready e → s.phase v = .ready e ∧ t.syncentry v = s.syncentry v) : Inv t := by
  refine ⟨(h.lists.frame hlinks hentry hheap).congr hlists, hstatic, fun v e hv => ?_⟩
  obtain ⟨hv, hsync⟩ := hready v e hv
  obtain ⟨hse, hmem, hnot, entry, he, hnominal⟩ := h.ready v e hv
  refine ⟨hsync.trans hse, ?_, ?_, entry, (hentry e hmem).trans he, hnominal⟩
  · show e ∈ t.lists .activeList
    rw [hlists]
    exact hmem
  · show e ∉ t.lists .delList
    rw [hlists]
    exact hnot

theorem Inv.varInit (h : Inv s) (halloc : s.allocates type real e) :
    Inv (s.ready (s.varInit type v real e swapped).2 v e swapped) := by
  obtain ⟨hreal, he⟩ := halloc
  have hne := h.lists.ne_of_allocates hreal (realSize_pos type)
  have hheap : HeapOk (s.allocRealSyncVar real type.realSize).xsync :=
    h.lists.heap.malloc (.realVar (type.realSize + SYNC_EVENT_LIST_SIZE)) hreal rfl
  have hentry : ∀ b ∈ s.recorded, (s.allocRealSyncVar real type.realSize).xsync.entry b = s.xsync.entry b := fun b hb =>
    entry_congr (Function.update_of_ne (hne b hb) _ _)
  cases swapped with
  | false =>
    refine h.frame (fun l => rfl) rfl (fun b hb => ?_) ?_ h.static fun v e hv => ⟨hv, rfl⟩
    · rw [← hentry b hb]
      exact entry_congr (Function.update_of_ne (hne b hb) _ _)
    · refine hheap.free fun a block ha => ?_
      have ha : Function.update (s.allocRealSyncVar real type.realSize).xsync.blocks real none a = some block := ha
      rw [Function.update_apply] at ha
      split at ha
      · cases ha
      · exact ha
  | true =>
    have hlists := h.lists.frame (t := (s.allocRealSyncVar real type.realSize).xsync) rfl hentry hheap
    have hnew : e ∉ s.recorded := fun hmem => hlists.ne_of_allocates he (by decide) e hmem rfl
    refine ⟨(hlists.recordSyncVar he).congr fun l => ?_, fun w hw => ?_, fun w e' hw => ?_⟩
    · cases l <;> rfl
    · have hw : Function.update s.phase v (.ready e) w = .static := hw
      by_cases hwv : w = v
      · subst hwv
        rw [Function.update_self] at hw
        cases hw
      · rw [Function.update_of_ne hwv] at hw
        exact (Function.update_of_ne hwv _ _).trans (h.static w hw)
    · have hw : Function.update s.phase v (.ready e) w = .ready e' := hw
      by_cases hwv : w = v
      · subst hwv
        rw [Function.update_self] at hw
        cases hw
        refine ⟨Function.update_self .., List.mem_append_right _ (List.mem_singleton_self e), ?_, _,
          (recordSyncVar_entry e).trans (if_pos rfl), rfl⟩
        exact fun hmem => hnew (h.lists.sub .delList hmem)
      · rw [Function.update_of_ne hwv] at hw
        obtain ⟨hse, hmem, hnot, entry, hentry', hnominal⟩ := h.ready w e' hw
        have hne' : e' ≠ e := by
          rintro rfl
          exact hnew hmem
        refine ⟨(Function.update_of_ne hwv _ _).trans hse, List.mem_append_left _ hmem, hnot, entry, ?_, hnominal⟩
        rw [← hentry', ← hentry e' hmem]
        exact (recordSyncVar_entry e').trans (if_neg hne')

/-- The entry of a variable that is destroyed goes to `_delList`. -/
theorem Inv.destroy (h : Inv s) (hv : s.phase v = .ready e) :
    ∃ u, s.deferSync v = some u ∧
      Inv { s with toSyncVars := u, phase := Function.update s.phase v .destroyed, destroyed := s.destroyed ++ [s.syncentry v] } := by
  obtain ⟨hse, hmem, hnot, entry, hentry, hnominal⟩ := h.ready v e hv
  obtain ⟨x, hx, hlists, hblocks⟩ := h.lists.deferSync (e := e) hmem hnot
  refine ⟨{ s.toSyncVars with xsync := x }, by rw [SyncVars.deferSync, hse, hx]; rfl, hlists.congr fun l => ?_,
    fun w hw => ?_, fun w e' hw => ?_⟩
  · cases l with
    | activeList => rfl
    | newList => rfl
    | delList =>
      show s.destroyed ++ [s.syncentry v] = _
      rw [hse]
      rfl
  · have hw : Function.update s.phase v .destroyed w = .static := hw
    by_cases hwv : w = v
    · subst hwv
      rw [Function.update_self] at hw
      cases hw
    · rw [Function.update_of_ne hwv] at hw
      exact h.static w hw
  · have hw : Function.update s.phase v .destroyed w = .ready e' := hw
    by_cases hwv : w = v
    · subst hwv
      rw [Function.update_self] at hw
      cases hw
    · rw [Function.update_of_ne hwv] at hw
      obtain ⟨hse', hmem', hnot', entry', hentry', hnominal'⟩ := h.ready w e' hw
      refine ⟨hse', hmem', fun hin => ?_, entry', ?_, hnominal'⟩
      · rcases List.mem_append.mp hin with hin | hin
        · exact hnot' hin
        · -- the entry says whose it is
          rw [List.mem_singleton.mp hin, hse, hentry] at hentry'
          cases hentry'
          exact hwv (hnominal'.symm.trans hnominal)
      · exact (entry_congr (congrFun hblocks e')).trans hentry'

theorem Inv.epochBegin (h : Inv s) :
    ∃ x, s.xsync.epochBegin = some (s.destroyed, x) ∧
      Inv { s with xsync := x, recorded := s.recorded.filter (· ∉ s.destroyed), fresh := [], destroyed := [] } := by
  obtain ⟨x, hx, hlists, hblocks, -⟩ := h.lists.epochBegin
  refine ⟨x, hx, hlists.congr fun l => by cases l <;> rfl, h.static, fun v e hv => ?_⟩
  obtain ⟨hse, hmem, hnot, entry, hentry, hnominal⟩ := h.ready v e hv
  refine ⟨hse, List.mem_filter.mpr ⟨hmem, decide_eq_true hnot⟩, List.not_mem_nil, entry, ?_, hnominal⟩
  exact (entry_congr ((hblocks e).trans (if_neg hnot))).trans hentry

theorem Inv.staticInit (h : Inv s) (v : Nat) :
    Inv { s with
      real := Function.update s.real v 0
      syncentry := Function.update s.syncentry v 0
      phase := Function.update s.phase v .static } := by
  have hother : ∀ w e, Function.update s.phase v .static w = .ready e → w ≠ v ∧ s.phase w = .ready e := by
    intro w e hw
    by_cases hwv : w = v
    · subst hwv
      rw [Function.update_self] at hw
      cases hw
    · rw [Function.update_of_ne hwv] at hw
      exact ⟨hwv, hw⟩
  refine h.frame (fun l => by cases l <;> rfl) rfl (fun e _ => rfl) h.lists.heap (fun w hw => ?_) fun w e hw => ?_
  · show Function.update s.syncentry v 0 w = 0
    by_cases hwv : w = v
    · subst hwv
      exact Function.update_self ..
    · have hw : Function.update s.phase v .static w = .static := hw
      rw [Function.update_of_ne hwv] at hw ⊢
      exact h.static w hw
  · obtain ⟨hwv, hw⟩ := hother w e hw
    exact ⟨hw, Function.update_of_ne hwv _ _⟩

theorem Inv.recordSyncEvent (h : Inv s) (type : ThreadInfo.SyncVariableType) (v event : Nat) :
    Inv { s with toSyncVars := s.toSyncVars.recordSyncEvent type v event } :=
  h.frame (fun l => by cases l <;> rfl) rfl (fun e _ => rfl) (h.lists.heap.free fun a block ha => ha) h.static
    fun w e hw => ⟨hw, rfl⟩

theorem Inv.exec {op : Op} (h : Inv s) (hlegal : s.legal op) (hs : s.exec op = some t) : Inv t := by
  cases op with
  | static v =>
    cases hs
    exact h.staticInit v
  | init type v real e swapped =>
    obtain ⟨u, hu, rfl⟩ := Option.map_eq_some_iff.mp hs
    rw [init_eq_some hu]
    exact h.varInit hlegal.2.2
  | use type v real e swapped =>
    obtain ⟨u, hu, rfl⟩ := Option.map_eq_some_iff.mp hs
    rcases use_cases hu with ⟨hvalid, rfl⟩ | ⟨hinvalid, rfl⟩
    · rw [hvalid]
      exact h
    · rw [hinvalid, Bool.true_and]
      exact h.varInit hlegal.2.2
  | recordSyncEvent type v event =>
    cases hs
    exact h.recordSyncEvent type v event
  | destroy v =>
    obtain ⟨u, hu, rfl⟩ := Option.map_eq_some_iff.mp hs
    rcases hlegal with hstatic | ⟨e, hready⟩
    · obtain ⟨x, hx, -⟩ := Option.map_eq_some_iff.mp hu
      rw [h.static v hstatic, XSync.deferSync, h.null] at hx
      cases hx
    · obtain ⟨u', hu', hinv⟩ := h.destroy hready
      rw [hu] at hu'
      cases hu'
      exact hinv
  | epochBegin =>
    obtain ⟨⟨freed, x⟩, hx, rfl⟩ := Option.map_eq_some_iff.mp hs
    obtain ⟨x', hx', hinv⟩ := h.epochBegin
    rw [hx] at hx'
    cases hx'
    exact hinv

/-- A call returns when it is not the destruction of a variable without an entry. -/
theorem Inv.exec_isSome {op : Op} (h : Inv s) (hlegal : s.legal op) : (∃ t, s.exec op = some t) ↔ s.setUp op := by
  cases op with
  | static v => exact ⟨fun _ => trivial, fun _ => ⟨_, rfl⟩⟩
  | init type v real e swapped =>
    refine ⟨fun _ => trivial, fun _ => ?_⟩
    obtain ⟨u, hu⟩ := s.init_isSome hlegal.1 hlegal.2.1
    exact ⟨_, congrArg (Option.map _) hu⟩
  | use type v real e swapped =>
    refine ⟨fun _ => trivial, fun _ => ?_⟩
    obtain ⟨u, hu⟩ := s.use_isSome hlegal.1
    exact ⟨_, congrArg (Option.map _) hu⟩
  | recordSyncEvent type v event => exact ⟨fun _ => trivial, fun _ => ⟨_, rfl⟩⟩
  | destroy v =>
    constructor
    · rintro ⟨t, ht⟩
      rcases hlegal with hstatic | hready
      · obtain ⟨u, hu, -⟩ := Option.map_eq_some_iff.mp ht
        obtain ⟨x, hx, -⟩ := Option.map_eq_some_iff.mp hu
        rw [h.static v hstatic, XSync.deferSync, h.null] at hx
        cases hx
      · exact hready
    · rintro ⟨e, hready⟩
      obtain ⟨u, hu, -⟩ := h.destroy hready
      exact ⟨_, congrArg (Option.map _) hu⟩
  | epochBegin =>
    refine ⟨fun _ => trivial, fun _ => ?_⟩
    obtain ⟨x, hx, -⟩ := h.epochBegin
    exact ⟨_, congrArg (Option.map _) hx⟩

theorem reachable_inv (h : Reachable system s) : Inv s := by
  refine h.invariant ?_ fun s op t hinv hstep => hinv.exec hstep.1 hstep.2
  rintro s ⟨real, syncentry, rfl⟩
  exact Inv.started real syncentry

theorem reachable_of_setUp (h : Reachable (system.restrict setUp) s) : Reachable system s := by
  induction h with
  | init h => exact .init h
  | step op _ hs ih => exact .step op ih hs.2

/-- As long as every variable that is destroyed has been set up, each call returns, `_delList` has the entries destroyed in
    this epoch, each once, all of them on `_activeList`, and the begin of the next epoch frees these and no others, keeps the
    rest of `_activeList` in order, empties the other two lists and drops the events of every variable that is left. -/
theorem lists_over_epochs (h : Reachable (system.restrict setUp) s) :
    (s.xsync.links.Ring (.head .delList) (s.destroyed.map SyncList.delList.node) ∧ s.destroyed.Nodup ∧
      s.xsync.links.Ring (.head .activeList) (s.recorded.map SyncList.activeList.node) ∧ s.recorded.Nodup ∧
      (∀ e ∈ s.destroyed, e ∈ s.recorded) ∧ ∀ e ∈ s.recorded, ∃ entry, s.xsync.entry e = some entry) ∧
    (∀ op, s.legal op → ((∃ t, s.exec op = some t) ↔ s.setUp op)) ∧
    ∃ x, s.xsync.epochBegin = some (s.destroyed, x) ∧
      (∀ a, x.blocks a = if a ∈ s.destroyed then none else s.xsync.blocks a) ∧
      x.links.Ring (.head .activeList) ((s.recorded.filter (· ∉ s.destroyed)).map SyncList.activeList.node) ∧
      x.links.Ring (.head .newList) [] ∧ x.links.Ring (.head .delList) [] ∧
      ∀ e ∈ s.recorded, e ∉ s.destroyed → ∀ entry, x.entry e = some entry → x.events entry.syncevents = [] := by
  have hinv := reachable_inv (reachable_of_setUp h)
  have hthreaded := hinv.lists.threaded
  obtain ⟨x, hx, hlists, hblocks, hevents⟩ := hinv.lists.epochBegin
  refine ⟨⟨hthreaded.ring .delList, hthreaded.nodup .delList, hthreaded.ring .activeList, hthreaded.nodup .activeList,
    hthreaded.sub .delList, hinv.lists.allocated⟩, fun op hlegal => hinv.exec_isSome hlegal, x, hx, hblocks,
    hlists.ring .activeList, hlists.ring .newList, hlists.ring .delList, fun e he hnot => ?_⟩
  exact hevents e (List.mem_filter.mpr ⟨he, decide_eq_true hnot⟩)

/-- A mutex is initialized, and its blocks are taken behind those that are in use. -/
theorem reachable_init (v a : Nat) (h : Reachable (system.restrict setUp) s) (hbase : INTERNAL_HEAP_BASE ≤ a)
    (hend : a + 200 ≤ INTERNAL_HEAP_END) (hroom : ∀ b block, s.xsync.blocks b = some block → b + block.size ≤ a) :
    ∃ t : Run, Reachable (system.restrict setUp) t ∧ t.recorded = s.recorded ++ [a + 120] ∧ t.fresh = s.fresh ++ [a + 120] ∧
      t.destroyed = s.destroyed ∧ t.phase = Function.update s.phase v (.ready (a + 120)) ∧
      t.xsync.blocks = Function.update (Function.update s.xsync.blocks a (some (.realVar 120))) (a + 120)
        (some (.syncEntry ⟨.mutex, v, a, a + 40⟩)) := by
  have hallocates : s.allocates .mutex a (a + 120) := by
    refine ⟨⟨hbase, Nat.le_trans (Nat.add_le_add_left (by decide) a) hend, fun b block hb => .inr (hroom b block hb)⟩,
      ⟨Nat.le_trans hbase (Nat.le_add_right _ _), hend, fun b block hb => .inr ?_⟩⟩
    have hb : Function.update s.xsync.blocks a (some (.realVar 120)) b = some block := hb
    rw [Function.update_apply] at hb
    split at hb
    · rename_i hba
      cases hb
      exact hba ▸ Nat.le_refl _
    · exact Nat.le_trans (hroom b block hb) (Nat.le_add_right _ _)
  refine ⟨_, .step (.init .mutex v a (a + 120) true) h ⟨trivial, ⟨by decide, fun _ => rfl, hallocates⟩, rfl⟩, rfl, rfl, rfl, rfl, ?_⟩
  have hreal : Function.update s.real v a v = a := Function.update_self ..
  show Function.update (Function.update s.xsync.blocks a (some (.realVar 120))) (a + 120)
    (some (.syncEntry ⟨.mutex, v, a, Function.update s.real v a v + 40⟩)) = _
  rw [hreal]

/-- One mutex has been initialized twice, and another one in between. -/
theorem reachable_three :
    ∃ s : Run, Reachable (system.restrict setUp) s ∧
      s.recorded = [INTERNAL_HEAP_BASE + 120, INTERNAL_HEAP_BASE + 320, INTERNAL_HEAP_BASE + 520] ∧ s.fresh = s.recorded ∧
      s.destroyed = [] ∧ s.phase 8192 = .ready (INTERNAL_HEAP_BASE + 320) ∧
      s.xsync.entry (INTERNAL_HEAP_BASE + 120) = some ⟨.mutex, 4096, INTERNAL_HEAP_BASE, INTERNAL_HEAP_BASE + 40⟩ ∧
      s.xsync.entry (INTERNAL_HEAP_BASE + 320) = some ⟨.mutex, 8192, INTERNAL_HEAP_BASE + 200, INTERNAL_HEAP_BASE + 240⟩ ∧
      s.xsync.entry (INTERNAL_HEAP_BASE + 520) = some ⟨.mutex, 4096, INTERNAL_HEAP_BASE + 400, INTERNAL_HEAP_BASE + 440⟩ := by
  -- what is in use after an initialization ends with its entry
  have hroom : ∀ {blocks : Nat → Option InternalBlock} {v a : Nat}, (∀ b block, blocks b = some block → b + block.size ≤ a) →
      ∀ b block, Function.update (Function.update blocks a (some (.realVar 120))) (a + 120)
        (some (.syncEntry ⟨.mutex, v, a, a + 40⟩)) b = some block → b + block.size ≤ a + 200 := by
    intro blocks v a h b block hb
    rw [Function.update_apply, Function.update_apply] at hb
    split at hb
    · rename_i hba
      cases hb
      exact hba ▸ Nat.le_refl _
    · split at hb
      · rename_i hba
        cases hb
        exact hba ▸ Nat.add_le_add_left (show 120 ≤ 200 by decide) a
      · exact Nat.le_trans (h b block hb) (Nat.le_add_right _ _)
  have h₀ : ∀ b block, (started (fun _ => 7) fun _ => 7).xsync.blocks b = some block → b + block.size ≤ INTERNAL_HEAP_BASE :=
    fun b block hb => by cases hb
  obtain ⟨s₁, hs₁, hrec₁, hfresh₁, hdel₁, -, hblocks₁⟩ :=
    reachable_init 4096 INTERNAL_HEAP_BASE (.init ⟨_, _, rfl⟩) (Nat.le_refl _) (by decide) h₀
  have h₁ : ∀ b block, s₁.xsync.blocks b = some block → b + block.size ≤ INTERNAL_HEAP_BASE + 200 := hblocks₁ ▸ hroom h₀
  obtain ⟨s₂, hs₂, hrec₂, hfresh₂, hdel₂, hphase₂, hblocks₂⟩ :=
    reachable_init 8192 (INTERNAL_HEAP_BASE + 200) hs₁ (Nat.le_add_right _ _) (by decide) h₁
  have h₂ : ∀ b block, s₂.xsync.blocks b = some block → b + block.size ≤ INTERNAL_HEAP_BASE + 400 := hblocks₂ ▸ hroom h₁
  obtain ⟨s, hs, hrec, hfresh, hdel, hphase, hblocks⟩ :=
    reachable_init 4096 (INTERNAL_HEAP_BASE + 400) hs₂ (Nat.le_add_right _ _) (by decide) h₂
  rw [hblocks₁] at hblocks₂
  rw [hblocks₂] at hblocks
  refine ⟨s, hs, by rw [hrec, hrec₂, hrec₁]; rfl, by rw [hfresh, hrec, hfresh₂, hrec₂, hfresh₁, hrec₁]; rfl,
    hdel.trans (hdel₂.trans hdel₁), by rw [hphase, hphase₂]; rfl, ?_, ?_, ?_⟩ <;> (rw [XSync.entry, hblocks]; rfl)

/-- The second mutex is destroyed, and the first one stays. -/
theorem lists_over_epochs_three :
    ∃ s : Run, s.recorded = [INTERNAL_HEAP_BASE + 120, INTERNAL_HEAP_BASE + 320, INTERNAL_HEAP_BASE + 520] ∧
      s.destroyed = [INTERNAL_HEAP_BASE + 320] ∧
      ∃ x, s.xsync.epochBegin = some ([INTERNAL_HEAP_BASE + 320], x) ∧
        x.links.Ring (.head .activeList) ([INTERNAL_HEAP_BASE + 120, INTERNAL_HEAP_BASE + 520].map SyncList.activeList.node) := by
  obtain ⟨s, hs, hrecorded, -, hnone, hready, -⟩ := reachable_three
  obtain ⟨u, hu, -⟩ := (reachable_inv (reachable_of_setUp hs)).destroy hready
  obtain ⟨t, ht⟩ : ∃ t, s.exec (.destroy 8192) = some t := ⟨_, congrArg (Option.map _) hu⟩
  have hreach : Reachable (system.restrict setUp) t := .step (.destroy 8192) hs ⟨⟨_, hready⟩, .inr ⟨_, hready⟩, ht⟩
  obtain ⟨hrecorded', hdestroyed⟩ : t.recorded = s.recorded ∧ t.destroyed = s.destroyed ++ [s.syncentry 8192] := by
    obtain ⟨u', -, rfl⟩ := Option.map_eq_some_iff.mp ht
    exact ⟨rfl, rfl⟩
  rw [hrecorded] at hrecorded'
  rw [hnone, ((reachable_inv (reachable_of_setUp hs)).ready _ _ hready).1, List.nil_append] at hdestroyed
  obtain ⟨-, -, x, hx, -, hactive, -⟩ := lists_over_epochs hreach
  rw [hrecorded', hdestroyed] at hactive
  exact ⟨t, hrecorded', hdestroyed, x, hdestroyed ▸ hx, hactive⟩

/-- A mutex with a static initializer, never used, is destroyed: what is taken for its entry is the null pointer. -/
theorem destroy_static_fails :
    ∃ s : Run, Reachable system s ∧ s.phase 4096 = .static ∧ s.legal (.destroy 4096) ∧
      s.syncentry 4096 = 0 ∧ 0 ∉ s.recorded ∧ s.exec (.destroy 4096) = none :=
  ⟨_, .step (.static 4096) (.init ⟨fun _ => 7, fun _ => 7, rfl⟩) ⟨trivial, rfl⟩, rfl, .inl rfl, rfl, List.not_mem_nil, rfl⟩

end Run

end SyncVars

end DoubleTake
