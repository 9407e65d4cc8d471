import Mathlib.Data.List.Rotate
import Mathlib.Data.List.Perm.Lattice

/-! Searches in a list that move what they find to the end: the elements of one key are served in turn, whatever is served
    between them. -/

namespace Rotation

variable {α κ : Type} {a b : α} {l l' as bs rs : List α}

/-- The first element that fits, and the list with it at the end. -/
def toBack (p : α → Bool) (l : List α) : Option (α × List α) := (l.find? p).map fun a => (a, l.eraseP p ++ [a])

theorem toBack_append {p : α → Bool} (has : ∀ b ∈ as, ¬ p b = true) (ha : p a = true) :
    toBack p (as ++ a :: bs) = some (a, as ++ bs ++ [a]) := by
  have hfind : (as ++ a :: bs).find? p = some a := List.find?_eq_some_iff_append.mpr ⟨ha, as, bs, rfl, by simpa using has⟩
  have herase : (as ++ a :: bs).eraseP p = as ++ bs := by
    rw [List.eraseP_append_right _ has, List.eraseP_cons_of_pos ha]
  rw [toBack, hfind, herase]
  rfl

theorem toBack_cases {p : α → Bool} (h : toBack p l = some (a, l')) :
    ∃ as bs, l = as ++ a :: bs ∧ l' = as ++ bs ++ [a] ∧ p a = true ∧ ∀ b ∈ as, ¬ p b = true := by
  obtain ⟨b, hfind, heq⟩ := Option.map_eq_some_iff.mp h
  obtain ⟨hb, as, bs, rfl, has⟩ := List.find?_eq_some_iff_append.mp hfind
  have has : ∀ b ∈ as, ¬ p b = true := by simpa using has
  have hsome : toBack p (as ++ b :: bs) = some (b, as ++ bs ++ [b]) := toBack_append has hb
  rw [hsome] at h
  cases h
  exact ⟨as, bs, rfl, rfl, hb, has⟩

theorem toBack_isSome {p : α → Bool} (ha : a ∈ l) (hp : p a = true) : ∃ b l', toBack p l = some (b, l') := by
  obtain ⟨b, hb⟩ := Option.isSome_iff_exists.mp (List.find?_isSome.mpr ⟨a, ha, hp⟩)
  exact ⟨b, _, congrArg (Option.map _) hb⟩

theorem toBack_perm {p : α → Bool} (h : toBack p l = some (a, l')) : l'.Perm l := by
  obtain ⟨as, bs, rfl, rfl, -, -⟩ := toBack_cases h
  rw [List.append_assoc]
  exact (List.perm_append_singleton a bs).append_left as

theorem toBack_eq_erase [DecidableEq α] {p : α → Bool} (h : toBack p l = some (a, l')) : l' = l.erase a ++ [a] := by
  obtain ⟨as, bs, rfl, rfl, ha, has⟩ := toBack_cases h
  have hnot : a ∉ as := fun hmem => has a hmem ha
  rw [List.erase_append_right _ hnot, List.erase_cons_head]

section
variable [DecidableEq κ] {key : α → κ} {k : κ} {ks : List κ}

/-- Elements of other keys keep their order. -/
theorem toBack_filter_other {p q : α → Bool} (h : toBack p l = some (a, l')) (hq : ¬ q a = true) : l'.filter q = l.filter q := by
  obtain ⟨as, bs, rfl, rfl, -, -⟩ := toBack_cases h
  rw [List.filter_append, List.filter_append, List.filter_append, List.filter_cons_of_neg hq, List.filter_cons_of_neg hq,
    List.filter_nil, List.append_nil]

/-- Those that fit have been turned by one. -/
theorem toBack_filter_self {p : α → Bool} (h : toBack p l = some (a, l')) :
    l'.filter p = (l.filter p).rotate 1 ∧ (l.filter p)[0]? = some a := by
  obtain ⟨as, bs, rfl, rfl, ha, has⟩ := toBack_cases h
  have hnil : as.filter p = [] := List.filter_eq_nil_iff.mpr has
  have hl : (as ++ a :: bs).filter p = a :: bs.filter p := by
    rw [List.filter_append, hnil, List.filter_cons_of_pos ha, List.nil_append]
  constructor
  · rw [hl, List.rotate_cons_succ, List.rotate_zero, List.filter_append, List.filter_append, hnil, List.nil_append,
      List.filter_cons_of_pos ha, List.filter_nil]
  · rw [hl]
    rfl

/-- One search for each of the keys: what is found, and the list at the end. -/
def serve (key : α → κ) : List α → List κ → Option (List α × List α)
  | l, [] => some ([], l)
  | l, k :: ks =>
    match toBack (fun a => key a = k) l with
    | none => none
    | some (a, l') => (serve key l' ks).map fun (rs, f) => (a :: rs, f)

theorem serve_cons_eq_some {f : List α} (h : serve key l (k :: ks) = some (rs, f)) :
    ∃ a l' rs', toBack (fun a => key a = k) l = some (a, l') ∧ serve key l' ks = some (rs', f) ∧ rs = a :: rs' := by
  rw [serve] at h
  cases hback : toBack (fun a => key a = k) l with
  | none =>
    rw [hback] at h
    cases h
  | some r =>
    rw [hback] at h
    obtain ⟨⟨rs', f'⟩, hserve, heq⟩ := Option.map_eq_some_iff.mp h
    cases heq
    exact ⟨r.1, r.2, rs', rfl, hserve, rfl⟩

theorem serve_perm {f : List α} (h : serve key l ks = some (rs, f)) : f.Perm l := by
  induction ks generalizing l rs with
  | nil =>
    cases h
    exact List.Perm.refl _
  | cons k ks ih =>
    obtain ⟨a, l', rs', hback, hserve, rfl⟩ := serve_cons_eq_some h
    exact (ih hserve).trans (toBack_perm hback)

theorem serve_length {f : List α} (h : serve key l ks = some (rs, f)) : rs.length = ks.length := by
  induction ks generalizing l rs with
  | nil =>
    cases h
    rfl
  | cons k ks ih =>
    obtain ⟨a, l', rs', -, hserve, rfl⟩ := serve_cons_eq_some h
    rw [List.length_cons, List.length_cons, ih hserve]

/-- The searches from some point on. -/
theorem serve_drop {f : List α} (h : serve key l ks = some (rs, f)) (n : Nat) :
    ∃ l', l'.Perm l ∧ serve key l' (ks.drop n) = some (rs.drop n, f) := by
  induction n generalizing l ks rs with
  | zero => exact ⟨_, List.Perm.refl _, h⟩
  | succ n ih =>
    cases ks with
    | nil =>
      cases h
      exact ⟨_, List.Perm.refl _, rfl⟩
    | cons k ks =>
      obtain ⟨a, l', rs', hback, hserve, rfl⟩ := serve_cons_eq_some h
      obtain ⟨l₁, hl₁, hserve⟩ := ih hserve
      exact ⟨l₁, hl₁.trans (toBack_perm hback), hserve⟩

theorem serve_isSome (h : ∀ k ∈ ks, ∃ a ∈ l, key a = k) : ∃ rs f, serve key l ks = some (rs, f) := by
  induction ks generalizing l with
  | nil => exact ⟨[], l, rfl⟩
  | cons k ks ih =>
    obtain ⟨a, ha, hk⟩ := h k List.mem_cons_self
    obtain ⟨b, l', hback⟩ := toBack_isSome ha (p := fun a => key a = k) (decide_eq_true hk)
    obtain ⟨rs, f, hserve⟩ := ih (l := l') fun k' hk' => by
      obtain ⟨c, hc, hkey⟩ := h k' (List.mem_cons_of_mem _ hk')
      exact ⟨c, (toBack_perm hback).mem_iff.mpr hc, hkey⟩
    refine ⟨b :: rs, f, ?_⟩
    rw [serve, hback]
    show Option.map _ (serve key l' ks) = _
    rw [hserve]
    rfl

/-- The elements of a key are found in turn: the list of them turns by one with each search for this key, and with no other. -/
theorem serve_getElem? {f : List α} (h : serve key l ks = some (rs, f)) {i : Nat} (hk : ks[i]? = some k) :
    rs[i]? = (l.filter fun a => key a = k)[(ks.take i).countP (· = k) % (l.filter fun a => key a = k).length]? := by
  induction ks generalizing l rs i with
  | nil => cases hk
  | cons k' ks ih =>
    obtain ⟨a, l', rs', hback, hserve, rfl⟩ := serve_cons_eq_some h
    obtain ⟨hself, hhead⟩ := toBack_filter_self hback
    cases i with
    | zero =>
      cases hk
      rw [List.take_zero, List.countP_nil, Nat.zero_mod, hhead]
      rfl
    | succ i =>
      have hk : ks[i]? = some k := hk
      show rs'[i]? = _
      rw [ih hserve hk, List.take_succ_cons]
      by_cases heq : k' = k
      · subst heq
        have hpos : 0 < (l.filter fun a => key a = k').length := List.length_pos_of_mem (List.mem_of_getElem? hhead)
        have hcount : (k' :: ks.take i).countP (· = k') = (ks.take i).countP (· = k') + 1 :=
          List.countP_cons_of_pos (decide_eq_true rfl)
        rw [hself, List.length_rotate, List.getElem?_rotate (Nat.mod_lt _ hpos), hcount, Nat.mod_add_mod]
      · have hne : ¬ decide (key a = k) = true := by
          obtain ⟨-, -, -, -, ha, -⟩ := toBack_cases hback
          rw [decide_eq_true_eq] at ha ⊢
          exact fun hak => heq (ha.symm.trans hak)
        have hcount : (k' :: ks.take i).countP (· = k) = (ks.take i).countP (· = k) :=
          List.countP_cons_of_neg (mt of_decide_eq_true heq)
        rw [toBack_filter_other hback hne, hcount]

/-- Searches for the keys of the list in its order. -/
theorem serve_in_order (key : α → κ) (as bs : List α) : serve key (as ++ bs) (as.map key) = some (as, bs ++ as) := by
  induction as generalizing bs with
  | nil => rw [List.append_nil]; rfl
  | cons a as ih =>
    have hback : toBack (fun b => key b = key a) (a :: as ++ bs) = some (a, as ++ bs ++ [a]) :=
      toBack_append (List.forall_mem_nil _) (decide_eq_true rfl)
    rw [List.map_cons, serve, hback, List.append_assoc]
    show Option.map _ (serve key (as ++ (bs ++ [a])) (as.map key)) = _
    rw [ih, List.append_assoc]
    rfl

/-- What has been found once is at the end, in the order in which it was found. -/
theorem serve_found [DecidableEq α] {f : List α} (h : serve key l ks = some (rs, f)) (hl : l.Nodup) (hrs : rs.Nodup) :
    f = l.filter (· ∉ rs) ++ rs := by
  induction ks generalizing l rs with
  | nil =>
    cases h
    rw [List.append_nil, List.filter_eq_self.mpr (by simp)]
  | cons k ks ih =>
    obtain ⟨a, l', rs', hback, hserve, rfl⟩ := serve_cons_eq_some h
    obtain ⟨hnot, hrs'⟩ := List.nodup_cons.mp hrs
    have hrest : (l.erase a).filter (· ∉ rs') = l.filter (· ∉ a :: rs') := by
      rw [hl.erase_eq_filter, List.filter_filter]
      refine List.filter_congr fun b _ => ?_
      by_cases hba : b = a <;> simp [hba]
    rw [ih hserve ((toBack_perm hback).nodup_iff.mpr hl) hrs', toBack_eq_erase hback, List.filter_append, hrest,
      List.filter_cons_of_pos (by simpa using hnot), List.filter_nil, List.append_assoc]
    rfl

end

end Rotation
