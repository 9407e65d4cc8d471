import DoubleTake.Lib.Rotation
import DoubleTake.Theorems.SyncVars

/-! The replayed initializations: each takes the next entry of its variable from `_newList` and moves it to the end, so the
    entries of one variable come in turn, in whatever order the variables are initialized. -/

namespace DoubleTake

open Transition CircularList Rotation
open ThreadInfo (SyncVariableType)

namespace XSync

variable {s : XSync} {lists : SyncList → List Nat} {type : SyncVariableType} {nominal e : Nat}

/-- What an entry is searched by. -/
def key (s : XSync) (e : Nat) : Option (SyncVariableType × Nat) := (s.entry e).map fun entry => (entry.type, entry.nominal)

theorem key_eq {entry : SyncEntry} (h : s.entry e = some entry) :
    decide (s.key e = some (type, nominal)) = true ↔ entry.type = type ∧ entry.nominal = nominal := by
  rw [key, h, decide_eq_true_eq, Option.map_some, Option.some.injEq, Prod.mk.injEq]

theorem find?_key_cons {entry : SyncEntry} (h : s.entry e = some entry) (es : List Nat) :
    (e :: es).find? (fun a => s.key a = some (type, nominal)) =
      if entry.type = type ∧ entry.nominal = nominal then some e else es.find? fun a => s.key a = some (type, nominal) := by
  split
  · rename_i hkey
    exact List.find?_cons_of_pos ((key_eq h).mpr hkey)
  · rename_i hkey
    exact List.find?_cons_of_neg (mt (key_eq h).mp hkey)

theorem retrieveLoop_spec {es : List Nat} {fuel : Nat}
    (hseg : s.links.Seg (SyncList.newList.node e) (es.map SyncList.newList.node) (.head .newList)) (hnodup : (e :: es).Nodup)
    (halloc : ∀ a ∈ e :: es, ∃ entry, s.entry a = some entry) (hfuel : (e :: es).length ≤ fuel) :
    s.retrieveLoop type nominal (SyncList.newList.node ((e :: es).getLast (List.cons_ne_nil e es))) fuel
      (SyncList.newList.node e) = some ((e :: es).find? fun a => s.key a = some (type, nominal)) := by
  induction es generalizing e fuel with
  | nil =>
    obtain ⟨fuel, rfl⟩ : ∃ n, fuel = n + 1 := Nat.exists_eq_add_one.mpr hfuel
    obtain ⟨entry, hentry⟩ := halloc e List.mem_cons_self
    rw [retrieveLoop, entryOf_node, hentry, find?_key_cons hentry]
    show (if entry.type = type ∧ entry.nominal = nominal then _ else _) = _
    split
    · rfl
    · exact if_pos rfl
  | cons b es ih =>
    obtain ⟨fuel, rfl⟩ : ∃ n, fuel = n + 1 := Nat.exists_eq_add_one.mpr (Nat.lt_of_lt_of_le (Nat.succ_pos _) hfuel)
    obtain ⟨entry, hentry⟩ := halloc e List.mem_cons_self
    obtain ⟨hnot, hnodup⟩ := List.nodup_cons.mp hnodup
    rw [List.getLast_cons (List.cons_ne_nil b es), retrieveLoop, entryOf_node, hentry, find?_key_cons hentry]
    show (if entry.type = type ∧ entry.nominal = nominal then _ else _) = _
    split
    · rfl
    · have hlast : SyncList.newList.node e ≠ SyncList.newList.node ((b :: es).getLast (List.cons_ne_nil b es)) := by
        intro heq
        have heq : e + 16 = (b :: es).getLast (List.cons_ne_nil b es) + 16 := SyncNode.mem.inj heq
        exact hnot (Nat.add_right_cancel heq ▸ List.getLast_mem (List.cons_ne_nil b es))
      rw [if_neg hlast, hseg.1.1]
      exact ih hseg.2 hnodup (fun a ha => halloc a (List.mem_cons_of_mem _ ha)) (Nat.le_of_succ_le_succ hfuel)

/-- A search takes the first entry of the variable to the end of `_newList`. -/
theorem retrieveSyncEntry_spec {es : List Nat} (h : Lists s lists)
    (hback : toBack (fun a => s.key a = some (type, nominal)) (lists .newList) = some (e, es)) :
    ∃ t, s.retrieveSyncEntry type nominal = some (e, t) ∧ Lists t (Function.update lists .newList es) ∧ t.blocks = s.blocks := by
  obtain ⟨as, bs, hsplit, -, -, -⟩ := toBack_cases hback
  have hmem : e ∈ lists .newList := by
    rw [hsplit]
    exact List.mem_append_right _ List.mem_cons_self
  have hfound : (lists .newList).find? (fun a => s.key a = some (type, nominal)) = some e := by
    obtain ⟨a, hfind, heq⟩ := Option.map_eq_some_iff.mp hback
    cases heq
    exact hfind
  have hsearch : s.retrieveLoop type nominal (s.links.prev (.head .newList)) HashMap.INTERNAL_HEAP_SIZE
      (s.links.next (.head .newList)) = some (some e) := by
    have hnodup := h.threaded.nodup .newList
    have hlen := h.length_le .newList
    cases hnew : lists .newList with
    | nil =>
      rw [hnew] at hmem
      cases hmem
    | cons a as =>
      obtain ⟨hfirst, hlast, hseg⟩ := h.threaded.ends hnew
      rw [hnew] at hnodup hlen hfound
      rw [hfirst, hlast, retrieveLoop_spec hseg hnodup (fun b hb => h.allocated b (h.sub .newList (hnew ▸ hb))) hlen, hfound]
  have hne : ¬ s.isListEmpty .newList = true := by
    rw [h.threaded.isListEmpty]
    exact List.ne_nil_of_mem hmem
  have hremoved := h.threaded.removeNode hmem
  have hnot : e ∉ Function.update lists .newList ((lists .newList).erase e) .newList := by
    rw [Function.update_self]
    exact fun hin => ((h.threaded.nodup .newList).mem_erase_iff.mp hin).1 rfl
  have hmoved := hremoved.insertTail (h.sub .newList hmem) hnot
  rw [Function.update_self, Function.update_idem, ← toBack_eq_erase hback] at hmoved
  have hactive : Function.update lists .newList es .activeList = lists .activeList := Function.update_of_ne (by decide) _ _
  refine ⟨(s.removeNode .newList e).insertTail .newList e, ?_, ⟨hmoved.ring, fun l => ?_, ?_, ?_⟩, rfl⟩
  · rw [retrieveSyncEntry, if_neg hne, hsearch]
  · rw [hactive]
    exact hmoved.sub l
  · rw [hactive]
    exact h.allocated
  · exact h.heap.free fun a block ha => ha

theorem retrieveAll_spec {keys : List (SyncVariableType × Nat)} {rs f : List Nat} (h : Lists s lists)
    (hserve : serve s.key (lists .newList) (keys.map some) = some (rs, f)) :
    ∃ t, s.retrieveAll keys = some (rs, t) ∧ Lists t (Function.update lists .newList f) ∧ t.blocks = s.blocks := by
  induction keys generalizing s lists rs with
  | nil =>
    cases hserve
    refine ⟨s, rfl, h.congr fun l => ?_, rfl⟩
    rw [Function.update_eq_self]
  | cons k keys ih =>
    obtain ⟨e, es, rs', hback, hrest, rfl⟩ := serve_cons_eq_some hserve
    obtain ⟨t, ht, hlists, hblocks⟩ := retrieveSyncEntry_spec h hback
    have hkey : t.key = s.key := by
      funext a
      rw [key, key, entry_congr (congrFun hblocks a)]
    have hrest' : serve t.key (Function.update lists .newList es .newList) (keys.map some) = some (rs', f) := by
      rw [hkey, Function.update_self]
      exact hrest
    obtain ⟨u, hu, hlists', hblocks'⟩ := ih hlists hrest'
    rw [Function.update_idem] at hlists'
    refine ⟨u, ?_, hlists', hblocks'.trans hblocks⟩
    rw [retrieveAll, ht]
    show Option.map _ (t.retrieveAll keys) = _
    rw [hu]
    rfl

end XSync

namespace SyncVars

namespace Run

variable {s : Run}

/-- The `k`-th call for a variable returns its `k`-th entry of the epoch, from the first again after the last, whatever is
    retrieved for other variables meanwhile. `_newList` keeps its entries, and a round in the recorded order leaves it as it was. -/
theorem retrieveAll_in_turn (h : Reachable system s) {keys : List (SyncVariableType × Nat)}
    (hkeys : ∀ k ∈ keys, ∃ e ∈ s.fresh, s.xsync.key e = some k) :
    ∃ es x f, s.xsync.retrieveAll keys = some (es, x) ∧ es.length = keys.length ∧
      x.links.Ring (.head .newList) (f.map SyncList.newList.node) ∧ f.Perm s.fresh ∧
      (∀ i k, keys[i]? = some k →
        es[i]? = (s.fresh.filter fun e => s.xsync.key e = some k)[
          (keys.take i).countP (· = k) % (s.fresh.filter fun e => s.xsync.key e = some k).length]?) ∧
      (keys.map some = s.fresh.map s.xsync.key → es = s.fresh ∧ f = s.fresh) ∧
      ∀ n, es.drop n = s.fresh → f = s.fresh := by
  have hlists := (reachable_inv h).lists
  have hoccur : ∀ k ∈ keys.map some, ∃ e ∈ s.fresh, s.xsync.key e = k := by
    intro k' hk'
    obtain ⟨k, hk, rfl⟩ := List.mem_map.mp hk'
    exact hkeys k hk
  obtain ⟨es, f, hserve⟩ := serve_isSome hoccur
  obtain ⟨x, hx, hlists', -⟩ := XSync.retrieveAll_spec hlists hserve
  have hring := hlists'.ring .newList
  rw [Function.update_self] at hring
  refine ⟨es, x, f, hx, ?_, hring, serve_perm hserve, fun i k hk => ?_, fun heq => ?_, fun n hn => ?_⟩
  · rw [serve_length hserve, List.length_map]
  · have hk : (keys.map some)[i]? = some (some k) := by rw [List.getElem?_map, hk]; rfl
    have hcount : ((keys.map some).take i).countP (· = some k) = (keys.take i).countP (· = k) := by
      rw [← List.map_take, List.countP_map]
      exact List.countP_congr fun k' _ => by simp
    rw [serve_getElem? hserve hk, hcount]
  · have hround := serve_in_order s.xsync.key s.fresh []
    rw [List.append_nil, ← heq, hserve] at hround
    cases hround
    exact ⟨rfl, rfl⟩
  · obtain ⟨l, hl, hserve'⟩ := serve_drop hserve n
    have hnodup : s.fresh.Nodup := hlists.threaded.nodup .newList
    have hf := serve_found hserve' (hl.nodup_iff.mpr hnodup) (hn ▸ hnodup)
    rw [hn, List.filter_eq_nil_iff.mpr fun a ha => by simpa using hl.mem_iff.mp ha] at hf
    exact hf

/-- A mutex with two entries and one with a single entry, retrieved in turn. -/
theorem retrieveAll_in_turn_three :
    ∃ (s : Run) (x : XSync),
      s.fresh = [XSync.INTERNAL_HEAP_BASE + 120, XSync.INTERNAL_HEAP_BASE + 320, XSync.INTERNAL_HEAP_BASE + 520] ∧
      s.xsync.retrieveAll [(.mutex, 8192), (.mutex, 4096), (.mutex, 8192), (.mutex, 4096), (.mutex, 4096)] =
        some ([XSync.INTERNAL_HEAP_BASE + 320, XSync.INTERNAL_HEAP_BASE + 120, XSync.INTERNAL_HEAP_BASE + 320,
          XSync.INTERNAL_HEAP_BASE + 520, XSync.INTERNAL_HEAP_BASE + 120], x) := by
  obtain ⟨s, hs, hrecorded, hfresh, -, -, hfirst, hsecond, hthird⟩ := reachable_three
  rw [hrecorded] at hfresh
  have hkey₁ : s.xsync.key (XSync.INTERNAL_HEAP_BASE + 120) = some (.mutex, 4096) := by rw [XSync.key, hfirst]; rfl
  have hkey₂ : s.xsync.key (XSync.INTERNAL_HEAP_BASE + 320) = some (.mutex, 8192) := by rw [XSync.key, hsecond]; rfl
  have hkey₃ : s.xsync.key (XSync.INTERNAL_HEAP_BASE + 520) = some (.mutex, 4096) := by rw [XSync.key, hthird]; rfl
  have hkeys : ∀ k ∈ [(SyncVariableType.mutex, 8192), (.mutex, 4096), (.mutex, 8192), (.mutex, 4096), (.mutex, 4096)],
      ∃ e ∈ s.fresh, s.xsync.key e = some k := by
    rw [hfresh]
    simp [hkey₁, hkey₂]
  obtain ⟨es, x, f, hx, hlen, -, -, hturn, -⟩ := retrieveAll_in_turn (reachable_of_setUp hs) hkeys
  have htwice : (s.fresh.filter fun e => s.xsync.key e = some (.mutex, 4096)) =
      [XSync.INTERNAL_HEAP_BASE + 120, XSync.INTERNAL_HEAP_BASE + 520] := by
    simp [hfresh, hkey₁, hkey₂, hkey₃]
  have honce : (s.fresh.filter fun e => s.xsync.key e = some (.mutex, 8192)) = [XSync.INTERNAL_HEAP_BASE + 320] := by
    simp [hfresh, hkey₁, hkey₂, hkey₃]
  have h₀ := hturn 0 _ rfl
  have h₁ := hturn 1 _ rfl
  have h₂ := hturn 2 _ rfl
  have h₃ := hturn 3 _ rfl
  have h₄ := hturn 4 _ rfl
  rw [honce] at h₀ h₂
  rw [htwice] at h₁ h₃ h₄
  have hes : es = [XSync.INTERNAL_HEAP_BASE + 320, XSync.INTERNAL_HEAP_BASE + 120, XSync.INTERNAL_HEAP_BASE + 320,
      XSync.INTERNAL_HEAP_BASE + 520, XSync.INTERNAL_HEAP_BASE + 120] := by
    refine List.ext_getElem? fun i => ?_
    match i with
    | 0 => exact h₀
    | 1 => exact h₁
    | 2 => exact h₂
    | 3 => exact h₃
    | 4 => exact h₄
    | i + 5 =>
      rw [List.getElem?_eq_none (by rw [hlen]; exact Nat.le_add_left 5 i)]
      rfl
  exact ⟨s, x, hfresh, hes ▸ hx⟩

end Run

end SyncVars

end DoubleTake
