import Mathlib.Data.List.Range
import Mathlib.Data.List.Perm.Subperm
import DoubleTake.HashMap

/-! What a hash map stands for: the lists of its buckets, and the finite map that is looked up in them. The count of a bucket
    is right as long as only keys that are there are erased, and the lists are a map as long as only keys that are not there
    are inserted. -/

namespace DoubleTake

open Transition CircularList

namespace HashMap

variable {κ ν : Type} {s s' : HashMap κ ν} {lists : Nat → List Nat} {key : κ} {keylen a i : Nat} {value : ν}

/-- The lists of the buckets. -/
structure Linked (s : HashMap κ ν) (lists : Nat → List Nat) : Prop where
  ring : ∀ i, i < s.buckets → s.links.Ring (.bucket i) ((lists i).map .entry)
  count : ∀ i, i < s.buckets → s.count i = (lists i).length
  placed : ∀ i, i < s.buckets → ∀ a ∈ lists i, ∃ entry, s.entries a = some entry ∧ s.hashIndex entry.key entry.keylen = i

/-- Every entry is on a list, and there is not room for too many of them. -/
structure Lists (s : HashMap κ ν) (lists : Nat → List Nat) : Prop extends Linked s lists where
  pos : 0 < s.buckets
  listed : ∀ a entry, s.entries a = some entry → a ∈ lists (s.hashIndex entry.key entry.keylen)
  room : ∀ i, i < s.buckets → ∀ a ∈ lists i, a < INTERNAL_HEAP_SIZE / ENTRY_SIZE

theorem Linked.nodup (h : Linked s lists) (hi : i < s.buckets) : (lists i).Nodup :=
  List.Nodup.of_map _ (List.nodup_cons.mp (h.ring i hi).nodup).2

/-- No node is on two lists. -/
theorem Linked.disjoint {j : Nat} (h : Linked s lists) (hi : i < s.buckets) (hj : j < s.buckets) (hne : j ≠ i) {u : HashNode}
    (hu : u ∈ HashNode.bucket j :: (lists j).map .entry) : u ∉ HashNode.bucket i :: (lists i).map .entry := by
  intro hmem
  rcases List.mem_cons.mp hu with rfl | hu
  · rcases List.mem_cons.mp hmem with heq | hmem
    · cases heq
      exact hne rfl
    · obtain ⟨b, -, heq⟩ := List.mem_map.mp hmem
      cases heq
  · obtain ⟨b, hb, rfl⟩ := List.mem_map.mp hu
    rcases List.mem_cons.mp hmem with heq | hmem
    · cases heq
    · obtain ⟨b', hb', heq⟩ := List.mem_map.mp hmem
      cases heq
      obtain ⟨entry, hentry, rfl⟩ := h.placed j hj _ hb
      obtain ⟨entry', hentry', rfl⟩ := h.placed i hi _ hb'
      rw [hentry] at hentry'
      cases hentry'
      exact hne rfl

theorem Lists.index (h : Lists s lists) (key : κ) (keylen : Nat) : s.hashIndex key keylen < s.buckets := Nat.mod_lt _ h.pos

/-- The count of a bucket fits in an `int`. -/
theorem Lists.length_lt (h : Lists s lists) (hi : i < s.buckets) : (lists i).length < 2 ^ 31 := by
  have hsub : lists i ⊆ List.range (INTERNAL_HEAP_SIZE / ENTRY_SIZE) := fun a ha => List.mem_range.mpr (h.room i hi a ha)
  have hle := ((h.nodup hi).subperm hsub).length_le
  rw [List.length_range] at hle
  have hroom : INTERNAL_HEAP_SIZE / ENTRY_SIZE = 107374182 := by decide
  omega

theorem toInt_eq {n : Nat} (h : n < 2 ^ 31) : (toInt n).toNat = n := by
  rw [toInt, BitVec.toInt_eq_toNat_of_lt, BitVec.toNat_ofNat, Nat.mod_eq_of_lt (by omega)]
  · rfl
  · rw [BitVec.toNat_ofNat, Nat.mod_eq_of_lt (by omega)]
    omega

theorem Lists.of_init (hashfunc : κ → Nat → Nat) {size : Nat} (hsize : 0 < size) :
    Lists (initialized κ ν hashfunc size) fun _ => [] := by
  refine ⟨⟨fun i _ => ⟨List.nodup_singleton _, rfl, rfl⟩, fun i _ => rfl, fun i _ => nofun⟩, hsize, nofun, fun i _ => nofun⟩

/-! ### The operations -/

theorem allocates_iff : s.allocates a = true ↔ s.entries a = none ∧ a < INTERNAL_HEAP_SIZE / ENTRY_SIZE := by
  rw [allocates, Bool.and_eq_true, Option.isNone_iff_eq_none, decide_eq_true_eq]

/-- A new entry is at the end of the list of its bucket. -/
theorem Lists.insert (h : Lists s lists) (ha : s.allocates a = true) :
    Lists (s.insert a key keylen value)
      (Function.update lists (s.hashIndex key keylen) (lists (s.hashIndex key keylen) ++ [a])) := by
  obtain ⟨hfresh, hroom⟩ := allocates_iff.mp ha
  have hi := h.index key keylen
  generalize hidx : s.hashIndex key keylen = i at hi
  -- the address is on no list
  have hnot : ∀ j, j < s.buckets → a ∉ lists j := by
    intro j hj hmem
    obtain ⟨entry, hentry, -⟩ := h.placed j hj a hmem
    rw [hfresh] at hentry
    cases hentry
  have hnode : ∀ j, j < s.buckets → ∀ u ∈ HashNode.bucket j :: (lists j).map .entry, u ≠ .entry a := by
    rintro j hj u hu rfl
    rcases List.mem_cons.mp hu with hu | hu
    · cases hu
    · obtain ⟨b, hb, heq⟩ := List.mem_map.mp hu
      cases heq
      exact hnot j hj hb
  have hring : ∀ j, j < s.buckets → (s.links.nodeInit (.entry a)).Ring (.bucket j) ((lists j).map .entry) := by
    intro j hj
    exact (h.ring j hj).frame fun u hu => nodeInit_frame (hnode j hj u hu)
  have hlinks : (s.insert a key keylen value).links = (s.links.nodeInit (.entry a)).insertTail (.entry a) (.bucket i) := by
    rw [← hidx]
    rfl
  have hentries : ∀ b, b ≠ a → (s.insert a key keylen value).entries b = s.entries b := fun b hb => Function.update_of_ne hb _ _
  have hnew : (s.insert a key keylen value).entries a = some ⟨key, keylen, value⟩ := Function.update_self ..
  have hcount : (s.insert a key keylen value).count = Function.update s.count i ((s.count i + 1) % 2 ^ 64) := by
    rw [← hidx]
    rfl
  refine ⟨⟨fun j hj => ?_, fun j hj => ?_, fun j hj b hb => ?_⟩, h.pos, fun b entry hb => ?_, fun j hj b hb => ?_⟩
  · have hj : j < s.buckets := hj
    rw [hlinks]
    by_cases hji : j = i
    · subst hji
      rw [Function.update_self, List.map_append]
      exact (hring j hj).insertTail fun hmem => hnode j hj _ hmem rfl
    · rw [Function.update_of_ne hji]
      exact (hring j hj).frame fun u hu =>
        insertTail_frame (hring i hi) (h.toLinked.disjoint hi hj hji hu) (hnode j hj u hu)
  · have hj : j < s.buckets := hj
    rw [hcount]
    by_cases hji : j = i
    · subst hji
      have hlt := h.length_lt hj
      rw [Function.update_self, Function.update_self, h.count j hj, Nat.mod_eq_of_lt (by omega), List.length_append]
      rfl
    · rw [Function.update_of_ne hji, Function.update_of_ne hji]
      exact h.count j hj
  · have hj : j < s.buckets := hj
    have hold : b ∈ lists j → ∃ entry, (s.insert a key keylen value).entries b = some entry ∧
        s.hashIndex entry.key entry.keylen = j := by
      intro hmem
      have hba : b ≠ a := by
        rintro rfl
        exact hnot j hj hmem
      rw [hentries b hba]
      exact h.placed j hj b hmem
    by_cases hji : j = i
    · subst hji
      rw [Function.update_self] at hb
      rcases List.mem_append.mp hb with hb | hb
      · exact hold hb
      · rw [List.mem_singleton.mp hb]
        exact ⟨_, hnew, hidx⟩
    · rw [Function.update_of_ne hji] at hb
      exact hold hb
  · show b ∈ Function.update lists i (lists i ++ [a]) (s.hashIndex entry.key entry.keylen)
    by_cases hba : b = a
    · subst hba
      rw [hnew] at hb
      cases hb
      dsimp only
      rw [hidx, Function.update_self]
      exact List.mem_append_right _ (List.mem_singleton_self b)
    · rw [hentries b hba] at hb
      have hmem := h.listed b entry hb
      by_cases hji : s.hashIndex entry.key entry.keylen = i
      · rw [hji] at hmem ⊢
        rw [Function.update_self]
        exact List.mem_append_left _ hmem
      · rw [Function.update_of_ne hji]
        exact hmem
  · have hj : j < s.buckets := hj
    by_cases hji : j = i
    · subst hji
      rw [Function.update_self] at hb
      rcases List.mem_append.mp hb with hb | hb
      · exact h.room j hj b hb
      · rw [List.mem_singleton.mp hb]
        exact hroom
    · rw [Function.update_of_ne hji] at hb
      exact h.room j hj b hb

/-- An entry that is on the list of the bucket is taken out, and counted. -/
theorem Lists.eraseEntry {as bs : List Nat} (h : Lists s lists) (hi : i < s.buckets) (heq : lists i = as ++ a :: bs) :
    Lists ((s.eraseEntry a).decrementCount i) (Function.update lists i (as ++ bs)) := by
  have hring := h.ring i hi
  have hnodup := h.nodup hi
  have hcount := h.count i hi
  have hlt := h.length_lt hi
  rw [heq] at hring hnodup hcount hlt
  rw [List.map_append, List.map_cons] at hring
  rw [List.length_append, List.length_cons] at hcount hlt
  have hmem : a ∈ lists i := by
    rw [heq]
    exact List.mem_append_right _ List.mem_cons_self
  -- the address is not on what is left, nor on another list
  have hnot : a ∉ as ++ bs := (List.nodup_middle.mp hnodup).notMem
  have hother : ∀ j, j < s.buckets → a ∈ lists j → j = i := by
    intro j hj hmem'
    obtain ⟨entry, hentry, rfl⟩ := h.placed j hj a hmem'
    obtain ⟨entry', hentry', rfl⟩ := h.placed i hi a hmem
    rw [hentry] at hentry'
    cases hentry'
    rfl
  have hsub : ∀ j, j < s.buckets → ∀ b ∈ Function.update lists i (as ++ bs) j, b ∈ lists j ∧ b ≠ a := by
    intro j hj b hb
    by_cases hji : j = i
    · subst hji
      rw [Function.update_self] at hb
      refine ⟨?_, fun hba => hnot (hba ▸ hb)⟩
      rw [heq]
      rcases List.mem_append.mp hb with hb | hb
      · exact List.mem_append_left _ hb
      · exact List.mem_append_right _ (List.mem_cons_of_mem _ hb)
    · rw [Function.update_of_ne hji] at hb
      refine ⟨hb, ?_⟩
      rintro rfl
      exact hji (hother j hj hb)
  have hentries : ∀ b, b ≠ a → ((s.eraseEntry a).decrementCount i).entries b = s.entries b := fun b hb =>
    Function.update_of_ne hb _ _
  refine ⟨⟨fun j hj => ?_, fun j hj => ?_, fun j hj b hb => ?_⟩, h.pos, fun b entry hb => ?_, fun j hj b hb => ?_⟩
  · have hj : j < s.buckets := hj
    show (s.links.removeNode (.entry a)).Ring _ _
    by_cases hji : j = i
    · subst hji
      rw [Function.update_self, List.map_append]
      exact hring.removeNode
    · rw [Function.update_of_ne hji]
      refine (h.ring j hj).frame fun u hu => removeNode_frame hring ?_
      have hdis := h.toLinked.disjoint hi hj hji hu
      rwa [heq, List.map_append, List.map_cons] at hdis
  · have hj : j < s.buckets := hj
    show Function.update s.count i ((s.count i + (2 ^ 64 - 1)) % 2 ^ 64) j = _
    by_cases hji : j = i
    · subst hji
      rw [Function.update_self, Function.update_self, hcount, List.length_append]
      omega
    · rw [Function.update_of_ne hji, Function.update_of_ne hji]
      exact h.count j hj
  · have hj : j < s.buckets := hj
    obtain ⟨hb, hba⟩ := hsub j hj b hb
    rw [hentries b hba]
    exact h.placed j hj b hb
  · have hba : b ≠ a := by
      rintro rfl
      have hnone : ((s.eraseEntry b).decrementCount i).entries b = none := Function.update_self ..
      rw [hnone] at hb
      cases hb
    rw [hentries b hba] at hb
    have hmem' := h.listed b entry hb
    show b ∈ Function.update lists i (as ++ bs) (s.hashIndex entry.key entry.keylen)
    by_cases hji : s.hashIndex entry.key entry.keylen = i
    · rw [hji, heq] at hmem'
      rw [hji, Function.update_self]
      rcases List.mem_append.mp hmem' with hmem' | hmem'
      · exact List.mem_append_left _ hmem'
      · rcases List.mem_cons.mp hmem' with heq' | hmem'
        · exact absurd heq' hba
        · exact List.mem_append_right _ hmem'
    · rw [Function.update_of_ne hji]
      exact hmem'
  · have hj : j < s.buckets := hj
    exact h.room j hj b (hsub j hj b hb).1

/-! ### The search -/

variable [DecidableEq κ]

/-- The address has an entry with this key. -/
def has (s : HashMap κ ν) (key : κ) (keylen : Nat) (a : Nat) : Bool :=
  (s.entries a).any fun entry => decide (entry.keylen = keylen ∧ entry.key = key)

theorem has_iff : s.has key keylen a = true ↔ ∃ entry, s.entries a = some entry ∧ entry.keylen = keylen ∧ entry.key = key := by
  rw [has]
  cases s.entries a with
  | none => simp
  | some entry => simp

/-- The loop goes over the list from behind the node. -/
theorem getEntryLoop_eq {node head : HashNode} {as : List Nat} (h : s.links.Seg node (as.map .entry) head)
    (hplaced : ∀ a ∈ as, s.entries a ≠ none) :
    s.getEntryLoop key keylen as.length (s.links.next node) = some (as.find? (s.has key keylen)) := by
  induction as generalizing node with
  | nil => rfl
  | cons a as ih =>
    obtain ⟨hpair, hseg⟩ := h
    obtain ⟨entry, hentry⟩ := Option.ne_none_iff_exists'.mp (hplaced a List.mem_cons_self)
    have hhas : s.has key keylen a = decide (entry.keylen = keylen ∧ entry.key = key) := by rw [has, hentry, Option.any_some]
    rw [hpair.1, List.length_cons, getEntryLoop, hentry, List.find?_cons, hhas]
    dsimp only
    split
    · rename_i hmatch
      rw [decide_eq_true hmatch]
    · rename_i hmatch
      rw [decide_eq_false hmatch]
      exact ih hseg fun b hb => hplaced b (List.mem_cons_of_mem _ hb)

theorem Lists.getEntry (h : Lists s lists) (hi : i < s.buckets) :
    s.getEntry i key keylen = some ((lists i).find? (s.has key keylen)) := by
  rw [HashMap.getEntry, toInt_eq (by rw [h.count i hi]; exact h.length_lt hi), h.count i hi]
  refine getEntryLoop_eq (h.ring i hi).seg fun a ha => ?_
  obtain ⟨entry, hentry, -⟩ := h.placed i hi a ha
  rw [hentry]
  nofun

theorem Lists.find (h : Lists s lists) (key : κ) (keylen : Nat) : s.find key keylen =
    some (((lists (s.hashIndex key keylen)).find? (s.has key keylen)).bind fun a => (s.entries a).map (·.value)) := by
  rw [HashMap.find, h.getEntry (h.index key keylen)]
  rfl

/-- An entry with the key is on the list of its bucket. -/
theorem Lists.mem_of_has (h : Lists s lists) (ha : s.has key keylen a = true) : a ∈ lists (s.hashIndex key keylen) := by
  obtain ⟨entry, hentry, rfl, rfl⟩ := has_iff.mp ha
  exact h.listed a entry hentry

/-- The lists are right, and a key is found exactly when an entry with it is on one of them. -/
def Consistent (s : HashMap κ ν) : Prop := ∃ lists, Linked s lists ∧ ∀ key keylen, ∃ r, s.find key keylen = some r ∧
  (r.isSome ↔ ∃ i, i < s.buckets ∧ ∃ a ∈ lists i, s.has key keylen a = true)

theorem Lists.consistent (h : Lists s lists) : Consistent s := by
  refine ⟨lists, h.toLinked, fun key keylen => ⟨_, h.find key keylen, ?_⟩⟩
  cases hfind : (lists (s.hashIndex key keylen)).find? (s.has key keylen) with
  | none =>
    refine ⟨nofun, ?_⟩
    rintro ⟨i, hi, a, ha, hhas⟩
    exact absurd hhas (List.find?_eq_none.mp hfind a (h.mem_of_has hhas))
  | some a =>
    have hhas := List.find?_some hfind
    obtain ⟨entry, hentry, -⟩ := has_iff.mp hhas
    refine ⟨fun _ => ⟨_, h.index key keylen, a, List.mem_of_find?_eq_some hfind, hhas⟩, fun _ => ?_⟩
    rw [Option.bind_some, hentry]
    rfl

/-- What `erase` erases is there. -/
def erasesPresent (s : HashMap κ ν) : Op κ ν → Prop
  | .erase key keylen => ∃ a, s.has key keylen a = true
  | _ => True

theorem Lists.insertIfAbsent (h : Lists s lists) (a : Nat) (key : κ) (keylen : Nat) (value : ν) :
    (∃ b, s.has key keylen b = true) ∧ s.insertIfAbsent a key keylen value = some (true, s) ∨
    (∀ b, s.has key keylen b ≠ true) ∧ s.insertIfAbsent a key keylen value = some (false, s.insert a key keylen value) := by
  rw [HashMap.insertIfAbsent, h.getEntry (h.index key keylen)]
  cases hfind : (lists (s.hashIndex key keylen)).find? (s.has key keylen) with
  | none => exact .inr ⟨fun b hb => List.find?_eq_none.mp hfind b (h.mem_of_has hb) hb, rfl⟩
  | some b => exact .inl ⟨⟨b, List.find?_some hfind⟩, rfl⟩

/-- `erase` takes out the first entry with the key. -/
theorem Lists.erase (h : Lists s lists) (hp : ∃ b, s.has key keylen b = true) : ∃ a as bs, s.has key keylen a = true ∧
    lists (s.hashIndex key keylen) = as ++ a :: bs ∧
    s.erase key keylen = some (true, (s.eraseEntry a).decrementCount (s.hashIndex key keylen)) := by
  obtain ⟨b, hb⟩ := hp
  cases hfind : (lists (s.hashIndex key keylen)).find? (s.has key keylen) with
  | none => exact absurd hb (List.find?_eq_none.mp hfind b (h.mem_of_has hb))
  | some a =>
    obtain ⟨hhas, as, bs, heq, -⟩ := List.find?_eq_some_iff_append.mp hfind
    refine ⟨a, as, bs, hhas, heq, ?_⟩
    rw [HashMap.erase, h.getEntry (h.index key keylen), hfind]

theorem Lists.exec {op : Op κ ν} (h : Lists s lists) (hp : erasesPresent s op) (hs : s.exec op = some s') :
    ∃ lists', Lists s' lists' := by
  cases op with
  | insert a key keylen value =>
    rw [HashMap.exec] at hs
    split at hs
    · rename_i ha
      cases hs
      exact ⟨_, h.insert ha⟩
    · cases hs
  | insertIfAbsent a key keylen value =>
    rw [HashMap.exec] at hs
    rcases h.insertIfAbsent a key keylen value with ⟨-, heq⟩ | ⟨-, heq⟩
    · rw [heq] at hs
      cases hs
      exact ⟨lists, h⟩
    · rw [heq, Option.bind_some, Bool.false_or] at hs
      split at hs
      · rename_i ha
        cases hs
        exact ⟨_, h.insert ha⟩
      · cases hs
  | erase key keylen =>
    obtain ⟨a, as, bs, -, heq, herase⟩ := h.erase hp
    rw [HashMap.exec, herase] at hs
    cases hs
    exact ⟨_, h.eraseEntry (h.index key keylen) heq⟩
  | find key keylen =>
    rw [HashMap.exec, h.find] at hs
    cases hs
    exact ⟨lists, h⟩

/-- After every sequence of operations in which the erased keys are there. -/
theorem counts_kept (h : Reachable ((system κ ν).restrict erasesPresent) s) : Consistent s := by
  have hlists : ∃ lists, Lists s lists := by
    refine Reachable.invariant (S := (system κ ν).restrict erasesPresent) (P := fun s => ∃ lists, Lists s lists) ?_ ?_ h
    · rintro s ⟨hashfunc, size, hsize, rfl⟩
      exact ⟨_, .of_init hashfunc hsize⟩
    · rintro s op s' ⟨lists, hl⟩ ⟨hp, hstep⟩
      exact hl.exec hp hstep
  obtain ⟨lists, hl⟩ := hlists
  exact hl.consistent

/-- A map from numbers to numbers, with two buckets. -/
def small : HashMap Nat Nat := initialized Nat Nat (fun key _ => key) 2

theorem small_init : (system Nat Nat).init small := ⟨_, 2, by decide, rfl⟩

/-- Keys 1 and 3 are in one bucket, and key 1 is erased. -/
theorem counts_kept_small : ∃ s, Reachable ((system Nat Nat).restrict erasesPresent) s ∧ s.count 1 = 1 ∧
    s.find 3 8 = some (some 30) ∧ Consistent s := by
  have hrun : ([.insert 0 1 8 10, .insert 1 3 8 30] : List (Op Nat Nat)).foldlM exec small =
      some ((small.insert 0 1 8 10).insert 1 3 8 30) := rfl
  have hpre : Reachable ((system Nat Nat).restrict erasesPresent) ((small.insert 0 1 8 10).insert 1 3 8 30) := by
    refine .of_foldlM (f := exec) (fun s op t hop hs => ⟨?_, hs⟩) (.init small_init) hrun
    simp only [List.mem_cons, List.not_mem_nil, or_false] at hop
    rcases hop with rfl | rfl <;> trivial
  have herase : (((small.insert 0 1 8 10).insert 1 3 8 30).exec (.erase 1 8)).map (fun s => (s.count 1, s.find 3 8)) =
      some (1, some (some 30)) := by decide +kernel
  obtain ⟨s, hs, heq⟩ := Option.map_eq_some_iff.mp herase
  simp only [Prod.mk.injEq] at heq
  have hreach : Reachable ((system Nat Nat).restrict erasesPresent) s := .step (.erase 1 8) hpre ⟨⟨0, rfl⟩, hs⟩
  exact ⟨s, hreach, heq.1, heq.2, counts_kept hreach⟩

/-- An erase of key 3, which is not there, hides key 1 of the same bucket. -/
theorem absent_erase_hides : ¬ ∀ s : HashMap Nat Nat, Reachable (system Nat Nat) s → Consistent s := by
  intro h
  have hrun : (([.insert 0 1 8 10, .erase 3 8] : List (Op Nat Nat)).foldlM exec small).map
      (fun s => (s.buckets, s.count 1, s.entries 0)) = some (2, 0, some ⟨1, 8, 10⟩) := by decide +kernel
  obtain ⟨s, hs, heq⟩ := Option.map_eq_some_iff.mp hrun
  have hfind : (([.insert 0 1 8 10, .erase 3 8] : List (Op Nat Nat)).foldlM exec small).map
      (fun s => (s.find 1 8, s.links.next (.bucket 1))) = some (some none, .entry 0) := by decide +kernel
  rw [hs, Option.map_some] at hfind
  simp only [Prod.mk.injEq, Option.some.injEq] at heq hfind
  obtain ⟨hbuckets, hcount, -⟩ := heq
  obtain ⟨lists, hl, -⟩ := h s (.of_foldlM (f := exec) (fun _ _ _ _ h => h) (.init small_init) hs)
  -- the entry is linked, and the count is 0
  have hring := hl.ring 1 (by rw [hbuckets]; decide)
  have hnil : lists 1 = [] := List.length_eq_zero_iff.mp ((hl.count 1 (by rw [hbuckets]; decide)).symm.trans hcount)
  rw [hnil] at hring
  have hnext := hring.seg.1
  rw [hfind.2] at hnext
  cases hnext

/-! ### The finite map -/

/-- The map after an operation: the last value that was inserted. -/
def Op.apply (m : κ → Nat → Option ν) : Op κ ν → κ → Nat → Option ν
  | .insert _ key keylen value => fun k n => if k = key ∧ n = keylen then some value else m k n
  | .insertIfAbsent _ key keylen value => fun k n => if k = key ∧ n = keylen ∧ m k n = none then some value else m k n
  | .erase key keylen => fun k n => if k = key ∧ n = keylen then none else m k n
  | .find _ _ => m

/-- The hash map, and the map that it should be. -/
def mapSystem (κ ν : Type) [DecidableEq κ] : System (HashMap κ ν × (κ → Nat → Option ν)) (Op κ ν) where
  init s := (system κ ν).init s.1 ∧ s.2 = fun _ _ => none
  step s op s' := s.1.exec op = some s'.1 ∧ s'.2 = op.apply s.2

/-- Only keys that are there are erased. -/
def erasesPresentKey (s : HashMap κ ν × (κ → Nat → Option ν)) : Op κ ν → Prop
  | .erase key keylen => s.2 key keylen ≠ none
  | _ => True

/-- Only keys that are not there are inserted. -/
def insertsAbsentKey (s : HashMap κ ν × (κ → Nat → Option ν)) : Op κ ν → Prop
  | .insert _ key keylen _ => s.2 key keylen = none
  | _ => True

/-- The entries are the map. -/
structure Maps (s : HashMap κ ν) (m : κ → Nat → Option ν) : Prop where
  unique : ∀ key keylen a b, s.has key keylen a = true → s.has key keylen b = true → a = b
  value : ∀ key keylen v, m key keylen = some v ↔ ∃ a, s.entries a = some ⟨key, keylen, v⟩

theorem Maps.has_iff {m : κ → Nat → Option ν} (h : Maps s m) : (∃ a, s.has key keylen a = true) ↔ m key keylen ≠ none := by
  rw [Option.ne_none_iff_exists']
  constructor
  · rintro ⟨a, ha⟩
    obtain ⟨⟨k, n, v⟩, hentry, rfl, rfl⟩ := HashMap.has_iff.mp ha
    exact ⟨v, (h.value k n v).mpr ⟨a, hentry⟩⟩
  · rintro ⟨v, hv⟩
    obtain ⟨a, ha⟩ := (h.value key keylen v).mp hv
    exact ⟨a, HashMap.has_iff.mpr ⟨_, ha, rfl, rfl⟩⟩

theorem Maps.find {m : κ → Nat → Option ν} (h : Maps s m) (hl : Lists s lists) (key : κ) (keylen : Nat) :
    s.find key keylen = some (m key keylen) := by
  rw [hl.find]
  cases hfind : (lists (s.hashIndex key keylen)).find? (s.has key keylen) with
  | none =>
    have hnone : m key keylen = none := by
      by_contra hne
      obtain ⟨a, ha⟩ := h.has_iff.mpr hne
      exact List.find?_eq_none.mp hfind a (hl.mem_of_has ha) ha
    rw [hnone]
    rfl
  | some a =>
    obtain ⟨⟨k, n, v⟩, hentry, rfl, rfl⟩ := HashMap.has_iff.mp (List.find?_some hfind)
    rw [(h.value k n v).mpr ⟨a, hentry⟩, Option.bind_some, hentry]
    rfl

theorem Maps.insert {m : κ → Nat → Option ν} (h : Maps s m) (ha : s.entries a = none) (habsent : m key keylen = none) :
    Maps (s.insert a key keylen value) fun k n => if k = key ∧ n = keylen then some value else m k n := by
  have hself : (s.insert a key keylen value).entries a = some ⟨key, keylen, value⟩ := Function.update_self ..
  have hother : ∀ b, b ≠ a → (s.insert a key keylen value).entries b = s.entries b := fun b hb => Function.update_of_ne hb _ _
  have hnone : ∀ b v, s.entries b ≠ some ⟨key, keylen, v⟩ := by
    intro b v hb
    rw [(h.value key keylen v).mpr ⟨b, hb⟩] at habsent
    cases habsent
  -- an entry with a key is the new one, or an old one with another key
  have hcases : ∀ k n b v, (s.insert a key keylen value).entries b = some ⟨k, n, v⟩ ↔
      b = a ∧ k = key ∧ n = keylen ∧ v = value ∨ b ≠ a ∧ ¬ (k = key ∧ n = keylen) ∧ s.entries b = some ⟨k, n, v⟩ := by
    intro k n b v
    by_cases hba : b = a
    · subst hba
      rw [hself]
      simp [eq_comm]
    · rw [hother b hba]
      simp only [hba, false_and, not_false_eq_true, true_and, false_or, iff_and_self, ne_eq]
      rintro hb ⟨rfl, rfl⟩
      exact hnone b v hb
  constructor
  · intro k n b b' hhas hhas'
    obtain ⟨⟨k₁, n₁, v⟩, hb, hn₁, hk₁⟩ := HashMap.has_iff.mp hhas
    obtain ⟨⟨k₂, n₂, v'⟩, hb', hn₂, hk₂⟩ := HashMap.has_iff.mp hhas'
    dsimp only at hn₁ hk₁ hn₂ hk₂
    subst hn₁ hk₁ hn₂ hk₂
    rcases (hcases _ _ _ _).mp hb with ⟨hba, hk, hn, -⟩ | ⟨-, hne, hb⟩
    · rcases (hcases _ _ _ _).mp hb' with ⟨hba', -⟩ | ⟨-, hne, -⟩
      · rw [hba, hba']
      · exact absurd ⟨hk, hn⟩ hne
    · rcases (hcases _ _ _ _).mp hb' with ⟨-, hk, hn, -⟩ | ⟨-, -, hb'⟩
      · exact absurd ⟨hk, hn⟩ hne
      · exact h.unique _ _ b b' (HashMap.has_iff.mpr ⟨_, hb, rfl, rfl⟩) (HashMap.has_iff.mpr ⟨_, hb', rfl, rfl⟩)
  · intro k n v
    simp only [hcases]
    by_cases hkn : k = key ∧ n = keylen
    · rw [if_pos hkn]
      constructor
      · intro heq
        exact ⟨a, .inl ⟨rfl, hkn.1, hkn.2, (Option.some.inj heq).symm⟩⟩
      · rintro ⟨b, ⟨-, -, -, rfl⟩ | ⟨-, hne, -⟩⟩
        · rfl
        · exact absurd hkn hne
    · rw [if_neg hkn, h.value]
      constructor
      · rintro ⟨b, hb⟩
        refine ⟨b, .inr ⟨?_, hkn, hb⟩⟩
        rintro rfl
        rw [ha] at hb
        cases hb
      · rintro ⟨b, ⟨-, hk, hn, -⟩ | ⟨-, -, hb⟩⟩
        · exact absurd ⟨hk, hn⟩ hkn
        · exact ⟨b, hb⟩

theorem Maps.eraseEntry {m : κ → Nat → Option ν} (h : Maps s m) (ha : s.has key keylen a = true) :
    Maps ((s.eraseEntry a).decrementCount i) fun k n => if k = key ∧ n = keylen then none else m k n := by
  obtain ⟨⟨k₀, n₀, v₀⟩, hentry, hn₀, hk₀⟩ := HashMap.has_iff.mp ha
  dsimp only at hn₀ hk₀
  subst hn₀ hk₀
  have hcases : ∀ b entry, ((s.eraseEntry a).decrementCount i).entries b = some entry ↔ b ≠ a ∧ s.entries b = some entry := by
    intro b entry
    show Function.update s.entries a none b = some entry ↔ _
    by_cases hba : b = a
    · subst hba
      simp
    · rw [Function.update_of_ne hba]
      exact (and_iff_right hba).symm
  constructor
  · intro k n b b' hb hb'
    obtain ⟨entry, hb, hn, hk⟩ := HashMap.has_iff.mp hb
    obtain ⟨entry', hb', hn', hk'⟩ := HashMap.has_iff.mp hb'
    exact h.unique k n b b' (HashMap.has_iff.mpr ⟨_, ((hcases _ _).mp hb).2, hn, hk⟩)
      (HashMap.has_iff.mpr ⟨_, ((hcases _ _).mp hb').2, hn', hk'⟩)
  · intro k n v
    simp only [hcases]
    by_cases hkn : k = k₀ ∧ n = n₀
    · obtain ⟨rfl, rfl⟩ := hkn
      rw [if_pos ⟨rfl, rfl⟩]
      refine ⟨nofun, ?_⟩
      rintro ⟨b, hba, hb⟩
      exact absurd (h.unique k n b a (HashMap.has_iff.mpr ⟨_, hb, rfl, rfl⟩) ha) hba
    · rw [if_neg hkn, h.value]
      refine exists_congr fun b => (and_iff_right_of_imp ?_).symm
      rintro hb rfl
      rw [hentry] at hb
      cases hb
      exact hkn ⟨rfl, rfl⟩

theorem Maps.exec {m : κ → Nat → Option ν} {op : Op κ ν} (h : Maps s m) (hl : Lists s lists)
    (hp : erasesPresentKey (s, m) op) (ha : insertsAbsentKey (s, m) op) (hs : s.exec op = some s') : Maps s' (op.apply m) := by
  cases op with
  | insert a key keylen value =>
    rw [HashMap.exec] at hs
    split at hs
    · rename_i hfree
      cases hs
      exact h.insert (allocates_iff.mp hfree).1 ha
    · cases hs
  | insertIfAbsent a key keylen value =>
    rw [HashMap.exec] at hs
    rcases hl.insertIfAbsent a key keylen value with ⟨hhas, heq⟩ | ⟨hnot, heq⟩
    · rw [heq] at hs
      cases hs
      have hm : Op.apply m (.insertIfAbsent a key keylen value) = m := by
        funext k n
        show (if k = key ∧ n = keylen ∧ m k n = none then some value else m k n) = m k n
        rw [if_neg]
        rintro ⟨rfl, rfl, hnone⟩
        exact h.has_iff.mp hhas hnone
      rw [hm]
      exact h
    · rw [heq, Option.bind_some, Bool.false_or] at hs
      split at hs
      · rename_i hfree
        cases hs
        have habsent : m key keylen = none := by
          by_contra hne
          obtain ⟨b, hb⟩ := h.has_iff.mpr hne
          exact hnot b hb
        have hm : Op.apply m (.insertIfAbsent a key keylen value) =
            fun k n => if k = key ∧ n = keylen then some value else m k n := by
          funext k n
          show (if k = key ∧ n = keylen ∧ m k n = none then some value else m k n) = _
          by_cases hkn : k = key ∧ n = keylen
          · obtain ⟨rfl, rfl⟩ := hkn
            rw [if_pos ⟨rfl, rfl, habsent⟩, if_pos ⟨rfl, rfl⟩]
          · rw [if_neg hkn, if_neg fun hand => hkn ⟨hand.1, hand.2.1⟩]
        rw [hm]
        exact h.insert (allocates_iff.mp hfree).1 habsent
      · cases hs
  | erase key keylen =>
    obtain ⟨a, as, bs, hhas, -, herase⟩ := hl.erase (h.has_iff.mpr hp)
    rw [HashMap.exec, herase] at hs
    cases hs
    exact h.eraseEntry hhas
  | find key keylen =>
    rw [HashMap.exec, hl.find] at hs
    cases hs
    exact h

/-- After every sequence of operations in which the erased keys are there and the inserted keys are not. -/
theorem finds_last {m : κ → Nat → Option ν}
    (h : Reachable ((mapSystem κ ν).restrict fun s op => erasesPresentKey s op ∧ insertsAbsentKey s op) (s, m))
    (key : κ) (keylen : Nat) : s.find key keylen = some (m key keylen) := by
  have hinv : (∃ lists, Lists s lists) ∧ Maps s m := by
    refine Reachable.invariant (S := (mapSystem κ ν).restrict fun s op => erasesPresentKey s op ∧ insertsAbsentKey s op)
      (P := fun s => (∃ lists, Lists s.1 lists) ∧ Maps s.1 s.2) ?_ ?_ h
    · rintro ⟨s, m⟩ ⟨⟨hashfunc, size, hsize, rfl⟩, rfl⟩
      refine ⟨⟨_, .of_init hashfunc hsize⟩, fun key keylen a b ha => ?_, fun key keylen v => ⟨nofun, ?_⟩⟩
      · cases ha
      · rintro ⟨a, ha⟩
        cases ha
    · rintro ⟨s, m⟩ op ⟨s', m'⟩ ⟨⟨lists, hl⟩, hm⟩ ⟨⟨hp, ha⟩, hs, rfl⟩
      refine ⟨hl.exec ?_ hs, hm.exec hl hp ha hs⟩
      cases op with
      | erase key keylen => exact hm.has_iff.mpr hp
      | insert | insertIfAbsent | find => trivial
  obtain ⟨⟨lists, hl⟩, hm⟩ := hinv
  exact hm.find hl key keylen

/-- Key 1 is erased and inserted again with another value. -/
theorem finds_last_small : ∃ s m,
    Reachable ((mapSystem Nat Nat).restrict fun s op => erasesPresentKey s op ∧ insertsAbsentKey s op) (s, m) ∧
    m 1 8 = some 11 ∧ s.find 1 8 = some (m 1 8) := by
  let S := (mapSystem Nat Nat).restrict fun s op => erasesPresentKey s op ∧ insertsAbsentKey s op
  let m₁ : Nat → Nat → Option Nat := (Op.insert 0 1 8 10).apply fun _ _ => none
  let m₂ : Nat → Nat → Option Nat := (Op.erase 1 8).apply m₁
  let s₁ := small.insert 0 1 8 10
  let s₂ := (s₁.eraseEntry 0).decrementCount 1
  have h₁ : Reachable S (s₁, m₁) := .step (.insert 0 1 8 10) (.init (s := (small, fun _ _ => none)) ⟨small_init, rfl⟩) ⟨⟨trivial, rfl⟩, rfl, rfl⟩
  have h₂ : Reachable S (s₂, m₂) := .step (.erase 1 8) h₁ ⟨⟨nofun, trivial⟩, rfl, rfl⟩
  have h₃ : Reachable S (s₂.insert 0 1 8 11, (Op.insert 0 1 8 11).apply m₂) :=
    .step (.insert 0 1 8 11) h₂ ⟨⟨trivial, rfl⟩, rfl, rfl⟩
  exact ⟨_, _, h₃, rfl, finds_last h₃ 1 8⟩

/-- Key 1 is inserted twice, and the first value is found. -/
theorem insert_twice_finds_first : ¬ ∀ (s : HashMap Nat Nat) m, Reachable ((mapSystem Nat Nat).restrict erasesPresentKey) (s, m) →
    ∀ key keylen, s.find key keylen = some (m key keylen) := by
  intro h
  let S := (mapSystem Nat Nat).restrict erasesPresentKey
  let m₁ : Nat → Nat → Option Nat := (Op.insert 0 1 8 10).apply fun _ _ => none
  let s₁ := small.insert 0 1 8 10
  have h₁ : Reachable S (s₁, m₁) := .step (.insert 0 1 8 10) (.init (s := (small, fun _ _ => none)) ⟨small_init, rfl⟩) ⟨trivial, rfl, rfl⟩
  have h₂ : Reachable S (s₁.insert 1 1 8 11, (Op.insert 1 1 8 11).apply m₁) := .step (.insert 1 1 8 11) h₁ ⟨trivial, rfl, rfl⟩
  have hfind := h _ _ h₂ 1 8
  have hfirst : (s₁.insert 1 1 8 11).find 1 8 = some (some 10) := by decide +kernel
  rw [hfirst] at hfind
  cases hfind

end HashMap

end DoubleTake
