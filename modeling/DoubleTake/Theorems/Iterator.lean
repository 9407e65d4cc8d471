import DoubleTake.Theorems.HashMap

/-! The iteration over a hash map: it ends, and it visits all entries, bucket by bucket and in the order of insertion. -/

namespace DoubleTake

open Transition CircularList

namespace HashMap

variable {κ ν : Type} {s s' : HashMap κ ν} {lists : Nat → List Nat} {order : List Nat} {key : κ} {keylen a i : Nat} {value : ν}

/-! ### One iteration -/

theorem make_eq {entry : HashNode} {pos : Nat} (h : pos < 2 ^ 31) : Iterator.make entry pos = ⟨some entry, pos⟩ := by
  have hint : toInt pos = pos := by
    rw [toInt, BitVec.toInt_eq_toNat_of_lt, BitVec.toNat_ofNat, Nat.mod_eq_of_lt (by omega)]
    rw [BitVec.toNat_ofNat, Nat.mod_eq_of_lt (by omega)]
    omega
  rw [Iterator.make, hint]
  congr 1
  omega

/-- The entries of the buckets from `pos` on. -/
def entriesFrom (s : HashMap κ ν) (lists : Nat → List Nat) (pos : Nat) : List HashNode :=
  (List.range' pos (s.buckets - pos)).flatMap fun i => (lists i).map .entry

theorem entriesFrom_of_lt {pos : Nat} (h : pos < s.buckets) :
    s.entriesFrom lists pos = (lists pos).map .entry ++ s.entriesFrom lists (pos + 1) := by
  obtain ⟨n, hn⟩ : ∃ n, s.buckets - pos = n + 1 := ⟨s.buckets - pos - 1, by omega⟩
  rw [entriesFrom, hn, List.range'_succ, List.flatMap_cons, entriesFrom, show s.buckets - (pos + 1) = n by omega]

theorem entriesFrom_of_ge {pos : Nat} (h : s.buckets ≤ pos) : s.entriesFrom lists pos = [] := by
  rw [entriesFrom, Nat.sub_eq_zero_of_le h]
  rfl

/-- Where the search for a bucket leads. -/
def fromBucket (s : HashMap κ ν) : Option Nat → Iterator
  | some pos => ⟨some (s.getFirstEntry pos), pos⟩
  | none => ⟨none, s.buckets⟩

theorem iterate_succ {it : Iterator} {entry : HashNode} {rest : List HashNode} {n : Nat} (hadvance : s.advance ⟨some entry, i⟩ = some it)
    (hrest : s.iterate n it = some rest) : s.iterate (n + 1) ⟨some entry, i⟩ = some (entry :: rest) := by
  simp only [iterate, hadvance, hrest, Option.bind_eq_bind, Option.bind_some]

/-- Behind the last entry of a bucket comes the head of its list. -/
theorem Linked.advance (h : Linked s lists) (hi : i < s.buckets) {as bs : List Nat} (heq : lists i = as ++ a :: bs) :
    s.advance ⟨some (.entry a), i⟩ = some (match bs with
      | [] => s.fromBucket (s.findBucket (s.buckets - (i + 1)) (i + 1))
      | b :: _ => ⟨some (.entry b), i⟩) := by
  have hring := h.ring i hi
  rw [heq, List.map_append, List.map_cons] at hring
  obtain ⟨-, hseg⟩ := seg_append.mp hring.seg
  cases bs with
  | nil =>
    have htail : s.isListTail (.entry a) i = true := decide_eq_true ⟨hi, hseg.1⟩
    rw [HashMap.advance, Option.map_some, if_neg (not_not.mpr htail)]
    rfl
  | cons b bs =>
    have hnext : s.links.next (.entry a) = .entry b := hseg.1.1
    have htail : ¬ s.isListTail (.entry a) i = true := by
      rw [isListTail, decide_eq_true_eq, hnext]
      rintro ⟨-, hhead⟩
      cases hhead
    rw [HashMap.advance, Option.map_some, if_pos htail, hnext]

/-- From an entry of a bucket on: the rest of the bucket, and the buckets after it. -/
theorem Linked.iterate_bucket (h : Linked s lists) (hi : i < s.buckets) {n : Nat} {rest : List HashNode}
    (hrest : s.iterate n (s.fromBucket (s.findBucket (s.buckets - (i + 1)) (i + 1))) = some rest)
    {as bs : List Nat} (heq : lists i = as ++ a :: bs) :
    s.iterate (n + (a :: bs).length) ⟨some (.entry a), i⟩ = some ((a :: bs).map .entry ++ rest) := by
  induction bs generalizing a as with
  | nil => exact iterate_succ (h.advance hi heq) hrest
  | cons b bs ih => exact iterate_succ (h.advance hi heq) (ih (heq.trans (List.append_cons ..)))

/-- From the first bucket at `pos` or behind it that is not empty. -/
theorem Linked.iterate_from (h : Linked s lists) {n pos : Nat} (hn : s.buckets - pos = n) :
    s.iterate (1 + (s.entriesFrom lists pos).length) (s.fromBucket (s.findBucket n pos)) = some (s.entriesFrom lists pos) := by
  induction n generalizing pos with
  | zero =>
    rw [entriesFrom_of_ge (by omega)]
    rfl
  | succ n ih =>
    have hpos : pos < s.buckets := by omega
    have hrest := ih (show s.buckets - (pos + 1) = n by omega)
    rw [findBucket, entriesFrom_of_lt hpos, h.count pos hpos]
    cases hlist : lists pos with
    | nil => exact hrest
    | cons a bs =>
      have hfirst : s.getFirstEntry pos = .entry a := by
        have hring := h.ring pos hpos
        rw [hlist] at hring
        exact hring.seg.1.1
      have hne : (a :: bs).length ≠ 0 := Nat.succ_ne_zero _
      rw [show n = s.buckets - (pos + 1) by omega] at hrest
      have hsplit : lists pos = [] ++ a :: bs := hlist
      have hall := h.iterate_bucket hpos hrest hsplit
      rw [if_pos hne, fromBucket, hfirst, List.length_append, List.length_map, Nat.add_comm (a :: bs).length, ← Nat.add_assoc]
      exact hall

theorem findBucket_lt {n pos p : Nat} (h : s.findBucket n pos = some p) : p < pos + n := by
  induction n generalizing pos with
  | zero => cases h
  | succ n ih =>
    rw [findBucket] at h
    split at h
    · cases h
      omega
    · have := ih h
      omega

/-- The whole iteration, as long as the position of a bucket fits in an `int`. -/
theorem Linked.iterate_begin (h : Linked s lists) (hb : s.buckets ≤ 2 ^ 31) :
    s.iterate (1 + (s.entriesFrom lists 0).length) s.begin = some (s.entriesFrom lists 0) := by
  have hall := h.iterate_from (show s.buckets - 0 = s.buckets from rfl)
  rw [begin]
  cases hfind : s.findBucket s.buckets 0 with
  | none =>
    rw [hfind, Nat.add_comm] at hall
    rw [Nat.add_comm]
    exact hall
  | some pos =>
    have hlt := findBucket_lt hfind
    rw [hfind] at hall
    dsimp only
    rw [make_eq (by omega)]
    exact hall

/-! ### The order of insertion -/

variable [DecidableEq κ]

/-- The entries in the order of insertion, after an operation. -/
def Op.record (s : HashMap κ ν) (order : List Nat) : Op κ ν → List Nat
  | .insert a _ _ _ => order ++ [a]
  | .insertIfAbsent a key keylen _ => if order.any (s.has key keylen) then order else order ++ [a]
  | .erase key keylen => order.eraseP (s.has key keylen)
  | .find _ _ => order

/-- The operations on a map that has been initialized, with any hash function and any number of buckets, and the order of its
    entries. -/
def orderSystem (κ ν : Type) [DecidableEq κ] : System (HashMap κ ν × List Nat) (Op κ ν) where
  init s := (∃ hashfunc size, 0 < size ∧ initializeMap κ ν hashfunc size = some s.1) ∧ s.2 = []
  step s op s' := s.1.exec op = some s'.1 ∧ s'.2 = op.record s.1 s.2

/-- The entry is in the bucket. -/
def inBucket (s : HashMap κ ν) (i a : Nat) : Bool := (s.entries a).any fun entry => decide (s.hashIndex entry.key entry.keylen = i)

/-- What an iteration is to visit: the buckets in turn, and the entries of each in the order of insertion. -/
def visits (s : HashMap κ ν) (order : List Nat) : List HashNode :=
  (List.range s.buckets).flatMap fun i => (order.filter (s.inBucket i)).map .entry

/-- The lists of the buckets have the entries in the order of insertion. -/
structure Ordered (s : HashMap κ ν) (order : List Nat) (lists : Nat → List Nat) : Prop extends Lists s lists where
  nodup : order.Nodup
  mem_iff : ∀ a, a ∈ order ↔ s.entries a ≠ none
  eq : ∀ i, i < s.buckets → lists i = order.filter (s.inBucket i)
  small : s.buckets ≤ 2 ^ 31

section
omit [DecidableEq κ]

theorem inBucket_iff : s.inBucket i a = true ↔ ∃ entry, s.entries a = some entry ∧ s.hashIndex entry.key entry.keylen = i := by
  rw [inBucket]
  cases s.entries a with
  | none => simp
  | some entry => simp

/-- The bucket of an entry depends on the entry alone. -/
theorem inBucket_congr (hentry : s'.entries a = s.entries a) (hindex : s'.hashIndex = s.hashIndex) :
    s'.inBucket i a = s.inBucket i a := by
  rw [inBucket, inBucket, hentry, hindex]

theorem Ordered.iterate (h : Ordered s order lists) : s.iterate (1 + (s.visits order).length) s.begin = some (s.visits order) := by
  have heq : s.entriesFrom lists 0 = s.visits order := by
    rw [entriesFrom, visits, Nat.sub_zero, List.range_eq_range']
    refine List.flatMap_congr fun i hi => ?_
    rw [h.eq i (by simpa using hi)]
  exact heq ▸ h.iterate_begin h.small

/-- A new entry is the last one. -/
theorem Ordered.insert (h : Ordered s order lists) (ha : s.allocates a = true) :
    ∃ lists', Ordered (s.insert a key keylen value) (order ++ [a]) lists' := by
  obtain ⟨hfresh, -⟩ := allocates_iff.mp ha
  have hnot : a ∉ order := fun hmem => (h.mem_iff a).mp hmem hfresh
  have hnew : (s.insert a key keylen value).entries a = some ⟨key, keylen, value⟩ := Function.update_self ..
  have hold : ∀ b, b ≠ a → (s.insert a key keylen value).entries b = s.entries b := fun b hb => Function.update_of_ne hb _ _
  refine ⟨_, h.toLists.insert ha, h.nodup.append (List.nodup_singleton a) (by simpa using hnot), fun b => ?_, fun i hi => ?_, h.small⟩
  · rw [List.mem_append, List.mem_singleton, h.mem_iff]
    by_cases hb : b = a
    · subst hb
      rw [hnew]
      simp
    · rw [hold b hb, or_iff_left hb]
  · have hi : i < s.buckets := hi
    have hsame : order.filter ((s.insert a key keylen value).inBucket i) = order.filter (s.inBucket i) := by
      refine List.filter_congr fun b hb => inBucket_congr (hold b ?_) rfl
      rintro rfl
      exact hnot hb
    have hbucket : (s.insert a key keylen value).inBucket i a = decide (s.hashIndex key keylen = i) := by
      rw [inBucket, hnew, Option.any_some]
      rfl
    rw [List.filter_append, hsame, ← h.eq i hi, List.filter_singleton, hbucket]
    by_cases hidx : s.hashIndex key keylen = i
    · subst hidx
      rw [Function.update_self, decide_eq_true rfl]
      rfl
    · rw [Function.update_of_ne (Ne.symm hidx), decide_eq_false hidx]
      exact (List.append_nil _).symm

end

theorem entries_ne_none_of_has (h : s.has key keylen a = true) : s.entries a ≠ none := by
  obtain ⟨entry, hentry, -⟩ := has_iff.mp h
  rw [hentry]
  exact Option.some_ne_none entry

theorem inBucket_of_has (h : s.has key keylen a = true) : s.inBucket (s.hashIndex key keylen) a = true := by
  obtain ⟨entry, hentry, rfl, rfl⟩ := has_iff.mp h
  exact inBucket_iff.mpr ⟨entry, hentry, rfl⟩

/-- The first entry with the key is taken out. -/
theorem Ordered.erase (h : Ordered s order lists) (hp : ∃ b, s.has key keylen b = true) :
    ∃ s' lists', s.erase key keylen = some (true, s') ∧ Ordered s' (order.eraseP (s.has key keylen)) lists' := by
  have hi := h.index key keylen
  -- The first one on the list of the bucket is the first one of all.
  have hfirst : (lists (s.hashIndex key keylen)).find? (s.has key keylen) = order.find? (s.has key keylen) := by
    rw [h.eq _ hi, List.find?_filter]
    congr 1
    funext b
    cases hb : s.has key keylen b with
    | false => exact decide_eq_false fun hand => absurd hand.2 Bool.false_ne_true
    | true => exact decide_eq_true ⟨inBucket_of_has hb, rfl⟩
  obtain ⟨b, hb⟩ := hp
  cases hfind : order.find? (s.has key keylen) with
  | none => exact absurd hb (List.find?_eq_none.mp hfind b ((h.mem_iff b).mpr (entries_ne_none_of_has hb)))
  | some a =>
    obtain ⟨hhas, xs, ys, rfl, hbefore⟩ := List.find?_eq_some_iff_append.mp hfind
    have herase : (xs ++ a :: ys).eraseP (s.has key keylen) = xs ++ ys := by
      rw [List.eraseP_append_right _ fun b hb => by simpa using hbefore b hb, List.eraseP_cons_of_pos hhas]
    have hnodup := List.nodup_middle.mp h.nodup
    have hnot : ∀ b ∈ xs ++ ys, b ≠ a := by
      rintro b hb rfl
      exact (List.nodup_cons.mp hnodup).1 hb
    have hbucket := inBucket_of_has hhas
    have hentries : ∀ b, b ≠ a → ((s.eraseEntry a).decrementCount (s.hashIndex key keylen)).entries b = s.entries b := fun b hb =>
      Function.update_of_ne hb _ _
    have hlist : lists (s.hashIndex key keylen) =
        xs.filter (s.inBucket (s.hashIndex key keylen)) ++ a :: ys.filter (s.inBucket (s.hashIndex key keylen)) := by
      rw [h.eq _ hi, List.filter_append, List.filter_cons_of_pos hbucket]
    refine ⟨(s.eraseEntry a).decrementCount (s.hashIndex key keylen), _, ?_, h.toLists.eraseEntry hi hlist, ?_, fun b => ?_,
      fun i hi => ?_, h.small⟩
    · rw [HashMap.erase, h.getEntry hi, hfirst, hfind]
    · rw [herase]
      exact (List.nodup_cons.mp hnodup).2
    · rw [herase]
      by_cases hb : b = a
      · subst hb
        exact iff_of_false (fun hmem => hnot b hmem rfl) (not_not.mpr (Function.update_self ..))
      · rw [hentries b hb, ← h.mem_iff]
        simp only [List.mem_append, List.mem_cons, hb, false_or]
    · have hi : i < s.buckets := hi
      have hsame : (xs ++ ys).filter (((s.eraseEntry a).decrementCount (s.hashIndex key keylen)).inBucket i) =
          (xs ++ ys).filter (s.inBucket i) := List.filter_congr fun b hb => inBucket_congr (hentries b (hnot b hb)) rfl
      rw [herase, hsame, List.filter_append]
      by_cases hidx : i = s.hashIndex key keylen
      · rw [hidx, Function.update_self]
      · have hout : ¬ s.inBucket i a = true := by
          intro hin
          obtain ⟨entry, hentry, rfl⟩ := inBucket_iff.mp hin
          obtain ⟨entry', hentry', heq⟩ := inBucket_iff.mp hbucket
          rw [hentry] at hentry'
          cases hentry'
          exact hidx heq
        rw [Function.update_of_ne hidx, h.eq i hi, List.filter_append, List.filter_cons_of_neg hout]

theorem Ordered.exec {op : Op κ ν} (h : Ordered s order lists) (hp : erasesPresent s op) (hs : s.exec op = some s') :
    ∃ lists', Ordered s' (op.record s order) lists' := by
  cases op with
  | insert a key keylen value =>
    rw [HashMap.exec] at hs
    split at hs
    next ha =>
      cases hs
      exact h.insert ha
    next => cases hs
  | insertIfAbsent a key keylen value =>
    rw [HashMap.exec] at hs
    have hany : order.any (s.has key keylen) = true ↔ ∃ b, s.has key keylen b = true := by
      rw [List.any_eq_true]
      exact exists_congr fun b => and_iff_right_of_imp fun hb => (h.mem_iff b).mpr (entries_ne_none_of_has hb)
    rcases h.insertIfAbsent a key keylen value with ⟨hhas, heq⟩ | ⟨hnone, heq⟩
    · rw [heq] at hs
      cases hs
      rw [Op.record, if_pos (hany.mpr hhas)]
      exact ⟨lists, h⟩
    · rw [heq, Option.bind_some, Bool.false_or] at hs
      split at hs
      next ha =>
        cases hs
        rw [Op.record, if_neg fun hhas => by obtain ⟨b, hb⟩ := hany.mp hhas; exact hnone b hb]
        exact h.insert ha
      next => cases hs
  | erase key keylen =>
    obtain ⟨s₁, lists', herase, h'⟩ := h.erase hp
    rw [HashMap.exec, herase] at hs
    cases hs
    exact ⟨lists', h'⟩
  | find key keylen =>
    rw [HashMap.exec, h.find] at hs
    cases hs
    exact ⟨lists, h⟩

theorem reachable_ordered (h : Reachable ((orderSystem κ ν).restrict fun s op => erasesPresent s.1 op) (s, order)) :
    ∃ lists, Ordered s order lists := by
  refine Reachable.invariant (S := (orderSystem κ ν).restrict fun s op => erasesPresent s.1 op)
    (P := fun s => ∃ lists, Ordered s.1 s.2 lists) ?_ ?_ h
  · rintro ⟨s, order⟩ ⟨⟨hashfunc, size, hsize, hinit⟩, rfl⟩
    rw [initializeMap] at hinit
    split at hinit
    next hroom =>
      cases hinit
      refine ⟨_, .of_init hashfunc hsize, List.nodup_nil, fun a => ?_, fun i hi => rfl, ?_⟩
      · exact iff_of_false List.not_mem_nil (not_not.mpr rfl)
      · rw [HASH_ENTRY_SIZE, INTERNAL_HEAP_SIZE] at hroom
        show size ≤ 2 ^ 31
        omega
    next => cases hinit
  · rintro ⟨s, order⟩ op ⟨s', order'⟩ ⟨lists, hl⟩ ⟨hp, hexec, rfl⟩
    exact hl.exec hp hexec

/-- Whatever has been inserted and erased, an iteration ends, and it visits each linked entry once: the buckets in turn, and the
    entries of each of them in the order of insertion. -/
theorem iteration_complete (h : Reachable ((orderSystem κ ν).restrict fun s op => erasesPresent s.1 op) (s, order)) :
    (∀ i, i < s.buckets → s.links.Ring (.bucket i) ((order.filter (s.inBucket i)).map .entry)) ∧
      (s.visits order).Nodup ∧ (∀ u, u ∈ s.visits order ↔ ∃ a, s.entries a ≠ none ∧ u = .entry a) ∧
      s.iterate (1 + (s.visits order).length) s.begin = some (s.visits order) := by
  obtain ⟨lists, hl⟩ := reachable_ordered h
  refine ⟨fun i hi => hl.eq i hi ▸ hl.ring i hi, ?_, fun u => ?_, hl.iterate⟩
  · refine List.nodup_flatMap.mpr ⟨fun i hi => ?_, List.nodup_range.imp fun hne => ?_⟩
    · exact (hl.nodup.filter _).map fun a b heq => by cases heq; rfl
    · intro u hu hu'
      obtain ⟨a, ha, rfl⟩ := List.mem_map.mp hu
      obtain ⟨b, hb, heq⟩ := List.mem_map.mp hu'
      cases heq
      obtain ⟨entry, hentry, rfl⟩ := inBucket_iff.mp (List.mem_filter.mp ha).2
      obtain ⟨entry', hentry', rfl⟩ := inBucket_iff.mp (List.mem_filter.mp hb).2
      rw [hentry] at hentry'
      cases hentry'
      exact hne rfl
  · rw [visits, List.mem_flatMap]
    constructor
    · rintro ⟨i, -, hu⟩
      obtain ⟨a, ha, rfl⟩ := List.mem_map.mp hu
      exact ⟨a, (hl.mem_iff a).mp (List.mem_filter.mp ha).1, rfl⟩
    · rintro ⟨a, ha, rfl⟩
      obtain ⟨entry, hentry⟩ := Option.ne_none_iff_exists'.mp ha
      refine ⟨s.hashIndex entry.key entry.keylen, List.mem_range.mpr (hl.index _ _), List.mem_map_of_mem ?_⟩
      exact List.mem_filter.mpr ⟨(hl.mem_iff a).mpr ha, inBucket_iff.mpr ⟨entry, hentry, rfl⟩⟩

/-- Keys 1 and 3 are in the bucket 1 and key 2 is in the bucket 0; then key 1 is erased. -/
theorem iteration_complete_small : ∃ s order,
    Reachable ((orderSystem Nat Nat).restrict fun s op => erasesPresent s.1 op) (s, order) ∧
    s.visits order = [.entry 1, .entry 2] ∧ s.iterate 3 s.begin = some [.entry 1, .entry 2] := by
  let f (s : HashMap Nat Nat × List Nat) (op : Op Nat Nat) := (s.1.exec op).map fun s' => (s', op.record s.1 s.2)
  let s₁ := ((small.insert 0 1 8 10).insert 1 2 8 20).insert 2 3 8 30
  have hrun : [.insert 0 1 8 10, .insert 1 2 8 20, .insert 2 3 8 30].foldlM f (small, []) = some (s₁, [0, 1, 2]) := rfl
  have hpre : Reachable ((orderSystem Nat Nat).restrict fun s op => erasesPresent s.1 op) (s₁, [0, 1, 2]) := by
    refine .of_foldlM (fun s op t hop hs => ⟨?_, ?_⟩) (.init ⟨⟨_, 2, by decide, rfl⟩, rfl⟩) hrun
    · simp only [List.mem_cons, List.not_mem_nil, or_false] at hop
      rcases hop with rfl | rfl | rfl <;> trivial
    · obtain ⟨s', hexec, rfl⟩ := Option.map_eq_some_iff.mp hs
      exact ⟨hexec, rfl⟩
  have herase : (s₁.exec (.erase 1 8)).map (fun s => (s.visits ((Op.erase 1 8).record s₁ [0, 1, 2]))) =
      some [.entry 1, .entry 2] := by decide +kernel
  obtain ⟨s, hs, hvisits⟩ := Option.map_eq_some_iff.mp herase
  have hr : Reachable ((orderSystem Nat Nat).restrict fun s op => erasesPresent s.1 op) (s, (Op.erase 1 8).record s₁ [0, 1, 2]) :=
    .step (.erase 1 8) hpre ⟨⟨0, rfl⟩, hs, rfl⟩
  have hall := (iteration_complete hr).2.2.2
  rw [hvisits] at hall
  exact ⟨s, _, hr, hvisits, hall⟩

end HashMap

end DoubleTake
