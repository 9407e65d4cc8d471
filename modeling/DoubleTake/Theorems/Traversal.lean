import Mathlib.Algebra.Order.BigOperators.Group.List
import Mathlib.Data.Finset.Card
import Mathlib.Data.Finset.Range
import DoubleTake.LeakCheck
import DoubleTake.Lib.Except
import DoubleTake.Lib.Worklist
import DoubleTake.Theorems.SentinelMap

/-! The search of the check for leaks comes to its end, whatever is in memory: an object that is searched gets a mark, no mark
    is taken away, and a marked object is not searched again. -/

namespace DoubleTake

open SentinelMap

/-! ### Marks -/

namespace ObjectHeader

variable {m : Mem} {p : Nat}

/-- The block size is its lowest byte, in which the mark is, and the rest. -/
theorem getSize_byte : (m (p - 16)).toNat = getSize m p % 256 ∧ getSize m p / 256 = m.read (p - 16 + 1) 3 := by
  have hlt := (m (p - 16)).toNat_lt
  have hsplit : getSize m p = (m (p - 16)).toNat + 256 * m.read (p - 16 + 1) 3 := rfl
  omega

/-- A new value for the lowest byte of the block size. -/
theorem setSize_eq_set {v : Nat} (hv : v / 256 = getSize m p / 256) : setSize m p v = m.set (p - 16) (UInt8.ofNat v) :=
  Mem.write_eq_set (hv.trans getSize_byte.2)

theorem or_checked (n : Nat) : n ||| OBJECT_CHECKED_WORD = n / 2 * 2 + 1 := by
  have hdiv : (n ||| OBJECT_CHECKED_WORD) / 2 = n / 2 := by
    rw [Nat.or_div_two]
    exact Nat.or_zero _
  have hmod : (n ||| OBJECT_CHECKED_WORD) % 2 = 1 := Nat.or_mod_two_eq_one.mpr (.inr rfl)
  omega

theorem and_mask {n : Nat} (hn : n < 2 ^ 32) : n &&& OBJECT_CHECKED_WORD_MASK = n / 2 * 2 := by
  have hdiv : (n &&& OBJECT_CHECKED_WORD_MASK) / 2 = n / 2 := by
    rw [Nat.and_div_two]
    exact Nat.and_two_pow_sub_one_of_lt_two_pow (n := 31) (by omega)
  have hmod : (n &&& OBJECT_CHECKED_WORD_MASK) % 2 ≠ 1 := fun h => absurd (Nat.and_mod_two_eq_one.mp h).2 (by decide)
  omega

theorem isObjectChecked_iff : isObjectChecked m p = true ↔ (m (p - 16)).toNat % 2 = 1 := by
  rw [isObjectChecked, bne_iff_ne, Nat.and_one_is_mod, getSize_byte.1]
  omega

theorem isObjectChecked_eq_false_iff : isObjectChecked m p = false ↔ (m (p - 16)).toNat % 2 = 0 := by
  rw [← Bool.not_eq_true, isObjectChecked_iff]
  omega

/-- The mark is the lowest bit of the first byte of the header. -/
theorem markObjectChecked_eq :
    ∃ v : UInt8, v.toNat = (m (p - 16)).toNat / 2 * 2 + 1 ∧ markObjectChecked m p = m.set (p - 16) v := by
  refine ⟨UInt8.ofNat (getSize m p ||| OBJECT_CHECKED_WORD), ?_, setSize_eq_set ?_⟩
  · rw [UInt8.toNat_ofNat', or_checked, getSize_byte.1]
    omega
  · rw [or_checked]
    omega

theorem cleanObjectChecked_eq :
    ∃ v : UInt8, v.toNat = (m (p - 16)).toNat / 2 * 2 ∧ cleanObjectChecked m p = m.set (p - 16) v := by
  have hsize : getSize m p < 2 ^ 32 := Mem.read_lt ..
  refine ⟨UInt8.ofNat (getSize m p &&& OBJECT_CHECKED_WORD_MASK), ?_, setSize_eq_set ?_⟩
  · rw [UInt8.toNat_ofNat', and_mask hsize, getSize_byte.1]
    omega
  · rw [and_mask hsize]
    omega

/-- Of other objects the mark stays. -/
theorem isObjectChecked_set_of_ne {q : Nat} (hp : 16 ≤ p) (hq : 16 ≤ q) (hne : q ≠ p) (v : UInt8) :
    isObjectChecked (m.set (p - 16) v) q = isObjectChecked m q := by
  rw [Bool.eq_iff_iff, isObjectChecked_iff, isObjectChecked_iff, Mem.set_of_ne (by omega)]

theorem isObjectChecked_mark {q : Nat} (hp : 16 ≤ p) (hq : 16 ≤ q) :
    isObjectChecked (markObjectChecked m p) q = true ↔ q = p ∨ isObjectChecked m q = true := by
  obtain ⟨v, hv, hmark⟩ := @markObjectChecked_eq m p
  rw [hmark]
  by_cases hqp : q = p
  · subst hqp
    rw [isObjectChecked_iff, Mem.set_self, hv]
    omega
  · rw [isObjectChecked_set_of_ne hp hq hqp, or_iff_right hqp]

/-- No mark is taken away, also not by the mark of an object that overlaps this one. -/
theorem odd_mark {b : Nat} (h : (m b).toNat % 2 = 1) : (markObjectChecked m p b).toNat % 2 = 1 := by
  obtain ⟨v, hv, hmark⟩ := @markObjectChecked_eq m p
  rw [hmark]
  by_cases hb : b = p - 16
  · rw [hb, Mem.set_self]
    omega
  · rwa [Mem.set_of_ne hb]

theorem isObjectChecked_mark_self : isObjectChecked (markObjectChecked m p) p = true := by
  obtain ⟨v, hv, hmark⟩ := @markObjectChecked_eq m p
  rw [hmark, isObjectChecked_iff, Mem.set_self]
  omega

theorem isValidAddr_iff {addr : Nat} :
    isValidAddr m p addr = true ↔ (getObjectSize m p).isPowerOfTwo ∧ p ≤ addr ∧ addr < p + getObjectSize m p := by
  rw [isValidAddr, isValidObjectSize, ← Nat.ne_zero_and_sub_one_eq_zero_iff_isPowerOfTwo]
  simp only [Bool.and_eq_true, bne_iff_ne, beq_iff_eq, Bool.not_eq_true', Bool.or_eq_false_iff, decide_eq_false_iff_not]
  omega

end ObjectHeader

variable {map : SentinelMap}

/-- The backward search for the start of an object comes to its end: it needs no more rounds than there are items below. -/
theorem SentinelMap.findObjectStartFrom_enough {item fuel : Nat} (h : item ≤ fuel) :
    map.findObjectStartFrom fuel item = map.findObjectStartFrom item item := by
  induction fuel using Nat.strong_induction_on generalizing item with
  | _ fuel ih =>
    cases hlast : map.bitmap.getLastBit item with
    | none => cases fuel <;> cases item <;> simp [findObjectStartFrom, hlast]
    | some j =>
      have hj : j < item := by
        rw [Bitmap.getLastBit_eq, Bits.lastSet_eq_some] at hlast
        exact hlast.1
      obtain ⟨k, rfl⟩ : ∃ k, fuel = k + 1 := ⟨fuel - 1, by omega⟩
      obtain ⟨i, rfl⟩ : ∃ i, item = i + 1 := ⟨item - 1, by omega⟩
      simp only [findObjectStartFrom, hlast]
      rw [ih k (by omega) (show j ≤ k by omega), ih i (by omega) (show j ≤ i by omega)]

namespace LeakCheck

/-- An address is taken for one of an object that begins behind a sentinel and has a power of two as its size. -/
theorem objectOf_spec {a q : Nat} (h : objectOf map a = some q) :
    ObjectHeader.isGoodObject map.mem q = true ∧ ObjectHeader.isValidAddr map.mem q a = true := by
  unfold objectOf at h
  split at h
  · split at h
    · split at h
      · cases h
      next hok =>
        rw [Option.some.injEq] at h
        rw [not_or, not_not, not_not] at hok
        exact h ▸ hok
    · cases h
  next hgood =>
    split at h
    next hok =>
      rw [Option.some.injEq] at h
      exact h ▸ ⟨not_not.mp hgood, hok⟩
    next => cases h

/-- A search puts the possible pointers on the list. -/
theorem foldl_checkInsert (c : LeakCheck) (words : List Nat) : words.foldl checkInsertUnexploredList c =
    { c with unexploredObjects := c.unexploredObjects ++ words.filter c.isPossibleHeapPointer } := by
  induction words generalizing c with
  | nil => simp
  | cons a words ih =>
    rw [List.foldl_cons, ih, checkInsertUnexploredList]
    split
    next h =>
      rw [List.filter_cons_of_pos h, List.append_assoc]
      rfl
    next h => rw [List.filter_cons_of_neg h]

theorem searchHeapPointers_eq (c : LeakCheck) {start stop : Nat} (hs : start % WORD_SIZE = 0) : c.searchHeapPointers start stop =
    .ok { c with unexploredObjects := c.unexploredObjects ++ (wordsIn c.map.mem start stop).filter c.isPossibleHeapPointer } := by
  rw [searchHeapPointers, if_neg (not_not.mpr hs), foldl_checkInsert]

/-! ### The rounds -/

/-- The object that a round searches for pointers: the one that the address is taken for, when it is neither free nor marked. -/
def scanOf (map : SentinelMap) (addr : Nat) : Option Nat := (objectOf map addr).filter (ObjectHeader.doCheckObject map.mem)

/-- The starts of the objects that `fuel` rounds search, in their order. -/
def scans : Nat → LeakCheck → List Nat
  | 0, _ => []
  | fuel + 1, c =>
    match c.unexploredObjects with
    | [] => []
    | addr :: rest =>
      (scanOf c.map addr).toList ++
        match exploreHeapObject { c with unexploredObjects := rest } addr with
        | .ok c => scans fuel c
        | .error _ => []

/-- The words of an object are put on the list and the object is marked. -/
def scan (c : LeakCheck) (p : Nat) : LeakCheck :=
  { c with
    unexploredObjects := c.unexploredObjects ++
      (wordsIn c.map.mem p (p + ObjectHeader.getObjectSize c.map.mem p)).filter c.isPossibleHeapPointer
    map := { c.map with mem := ObjectHeader.markObjectChecked c.map.mem p } }

theorem scanOf_eq_some {a p : Nat} :
    scanOf map a = some p ↔ objectOf map a = some p ∧ ObjectHeader.doCheckObject map.mem p = true := by
  rw [scanOf, Option.filter_eq_some_iff]

theorem doCheckObject_iff {m : Mem} {p : Nat} :
    ObjectHeader.doCheckObject m p = true ↔ ObjectHeader.getObjectSize m p ≠ 0 ∧ ObjectHeader.isObjectChecked m p = false := by
  simp [ObjectHeader.doCheckObject, ObjectHeader.isObjectFree]

/-- What a round may do: nothing, or search an object, which has to begin at a word. -/
theorem exploreHeapObject_cases (c : LeakCheck) (addr : Nat) :
    (scanOf c.map addr = none ∧ exploreHeapObject c addr = .ok c) ∨
      ∃ p, scanOf c.map addr = some p ∧ (p % WORD_SIZE = 0 ∧ exploreHeapObject c addr = .ok (c.scan p) ∨
        p % WORD_SIZE ≠ 0 ∧ exploreHeapObject c addr = .error .assertion) := by
  unfold exploreHeapObject scanOf
  cases hobj : objectOf c.map addr with
  | none => exact .inl ⟨rfl, rfl⟩
  | some p =>
    dsimp only
    cases hck : ObjectHeader.doCheckObject c.map.mem p with
    | false => exact .inl ⟨by rw [Option.filter_some, if_neg (by rw [hck]; exact Bool.false_ne_true)], rfl⟩
    | true =>
      refine .inr ⟨p, by rw [Option.filter_some, if_pos hck], ?_⟩
      rw [if_pos rfl]
      by_cases hp : p % WORD_SIZE = 0
      · exact .inl ⟨hp, by rw [Except.bind_of_ok (searchHeapPointers_eq _ hp)]; rfl⟩
      · exact .inr ⟨hp, Except.bind_of_error (if_pos hp)⟩

variable {c c' : LeakCheck} {addr : Nat} {rest : List Nat}

/-- The same for the rounds that follow. -/
theorem round_cases (hc : c.unexploredObjects = addr :: rest) :
    (scanOf c.map addr = none ∧ ∀ fuel,
      traverseUnexploredList (fuel + 1) c = traverseUnexploredList fuel { c with unexploredObjects := rest } ∧
      scans (fuel + 1) c = scans fuel { c with unexploredObjects := rest }) ∨
    ∃ p, scanOf c.map addr = some p ∧
      (p % WORD_SIZE = 0 ∧ (∀ fuel,
          traverseUnexploredList (fuel + 1) c = traverseUnexploredList fuel (scan { c with unexploredObjects := rest } p) ∧
          scans (fuel + 1) c = p :: scans fuel (scan { c with unexploredObjects := rest } p)) ∨
        p % WORD_SIZE ≠ 0 ∧ ∀ fuel, traverseUnexploredList (fuel + 1) c = .error .assertion ∧ scans (fuel + 1) c = [p]) := by
  rcases exploreHeapObject_cases { c with unexploredObjects := rest } addr with ⟨hnone, hex⟩ | ⟨p, hp, ⟨hal, hex⟩ | ⟨hal, hex⟩⟩
  · refine .inl ⟨hnone, fun fuel => ?_⟩
    rw [traverseUnexploredList, scans, hc]
    dsimp only at hnone ⊢
    rw [Except.bind_of_ok hex, hex, hnone]
    exact ⟨rfl, rfl⟩
  · refine .inr ⟨p, hp, .inl ⟨hal, fun fuel => ?_⟩⟩
    rw [traverseUnexploredList, scans, hc]
    dsimp only at hp ⊢
    rw [Except.bind_of_ok hex, hex, hp]
    exact ⟨rfl, rfl⟩
  · refine .inr ⟨p, hp, .inr ⟨hal, fun fuel => ?_⟩⟩
    rw [traverseUnexploredList, scans, hc]
    dsimp only at hp ⊢
    rw [Except.bind_of_error hex, hex, hp]
    exact ⟨rfl, rfl⟩

theorem isObjectChecked_scan {p q : Nat} (h : q = p ∨ ObjectHeader.isObjectChecked c.map.mem q = true) :
    ObjectHeader.isObjectChecked (c.scan p).map.mem q = true := by
  rcases h with rfl | h
  · exact ObjectHeader.isObjectChecked_mark_self
  · exact ObjectHeader.isObjectChecked_iff.mpr (ObjectHeader.odd_mark (ObjectHeader.isObjectChecked_iff.mp h))

theorem scanOf_unchecked {a p : Nat} (h : scanOf map a = some p) : ObjectHeader.isObjectChecked map.mem p = false :=
  (doCheckObject_iff.mp (scanOf_eq_some.mp h).2).2

/-- Every round preserves `I`. -/
structure Kept (I : LeakCheck → Prop) : Prop where
  skip : ∀ {c addr rest}, I c → c.unexploredObjects = addr :: rest → scanOf c.map addr = none → I { c with unexploredObjects := rest }
  scan : ∀ {c addr rest p}, I c → c.unexploredObjects = addr :: rest → scanOf c.map addr = some p → p % WORD_SIZE = 0 →
    I (scan { c with unexploredObjects := rest } p)

variable {I : LeakCheck → Prop}

/-- What every round preserves holds when the list is empty. -/
theorem Kept.traverse (hI : Kept I) (h : I c) {fuel : Nat} (hrun : traverseUnexploredList fuel c = .ok c') :
    I c' ∧ c'.unexploredObjects = [] := by
  induction fuel generalizing c with
  | zero => cases hrun
  | succ fuel ih =>
    cases hc : c.unexploredObjects with
    | nil =>
      rw [traverseUnexploredList, hc, Except.ok.injEq] at hrun
      exact hrun ▸ ⟨h, hc⟩
    | cons addr rest =>
      rcases round_cases hc with ⟨hnone, hround⟩ | ⟨p, hp, ⟨hal, hround⟩ | ⟨-, hround⟩⟩
      · exact ih (hI.skip h hc hnone) ((hround fuel).1 ▸ hrun)
      · exact ih (hI.scan h hc hp hal) ((hround fuel).1 ▸ hrun)
      · rw [(hround fuel).1] at hrun
        cases hrun

/-- It holds also whenever an object is searched. -/
theorem Kept.scans (hI : Kept I) (h : I c) {fuel p : Nat} (hp : p ∈ scans fuel c) :
    ∃ c addr rest, I c ∧ c.unexploredObjects = addr :: rest ∧ scanOf c.map addr = some p := by
  induction fuel generalizing c with
  | zero => cases hp
  | succ fuel ih =>
    cases hc : c.unexploredObjects with
    | nil =>
      rw [LeakCheck.scans, hc] at hp
      cases hp
    | cons addr rest =>
      rcases round_cases hc with ⟨hnone, hround⟩ | ⟨q, hq, ⟨hal, hround⟩ | ⟨-, hround⟩⟩
      · exact ih (hI.skip h hc hnone) ((hround fuel).2 ▸ hp)
      · rw [(hround fuel).2] at hp
        rcases List.mem_cons.mp hp with rfl | hp
        · exact ⟨c, addr, rest, h, hc, hq⟩
        · exact ih (hI.scan h hc hq hal) hp
      · rw [(hround fuel).2, List.mem_singleton] at hp
        exact ⟨c, addr, rest, h, hc, hp ▸ hq⟩

theorem kept_checked (p : Nat) : Kept fun c => ObjectHeader.isObjectChecked c.map.mem p = true :=
  ⟨fun h _ _ => h, fun h _ _ _ => isObjectChecked_scan (.inr h)⟩

/-- An object that is marked is not searched. -/
theorem scans_unchecked {fuel p : Nat} (h : p ∈ scans fuel c) : ObjectHeader.isObjectChecked c.map.mem p = false := by
  refine Bool.eq_false_of_not_eq_true fun hck => ?_
  obtain ⟨c', addr, rest, hck', -, hp⟩ := (kept_checked p).scans hck h
  rw [scanOf_unchecked hp] at hck'
  cases hck'

/-- No object is searched twice. -/
theorem scans_nodup (fuel : Nat) (c : LeakCheck) : (scans fuel c).Nodup := by
  induction fuel generalizing c with
  | zero => exact List.nodup_nil
  | succ fuel ih =>
    cases hc : c.unexploredObjects with
    | nil =>
      rw [scans, hc]
      exact List.nodup_nil
    | cons addr rest =>
      rcases round_cases hc with ⟨-, hround⟩ | ⟨p, -, ⟨-, hround⟩ | ⟨-, hround⟩⟩
      · rw [(hround fuel).2]
        exact ih _
      · rw [(hround fuel).2, List.nodup_cons]
        refine ⟨fun hmem => ?_, ih _⟩
        have hck := scans_unchecked hmem
        rw [isObjectChecked_scan (.inl rfl)] at hck
        cases hck
      · rw [(hround fuel).2]
        exact List.nodup_singleton p

/-! ### The end -/

/-- How the rounds end: with an empty list, all the objects that have been searched marked, or at an object that does not begin
    at a word, where the assertion of the search fails. -/
def Ended (r : Except Fault LeakCheck) (searched : List Nat) : Prop :=
  (∃ c, r = .ok c ∧ c.unexploredObjects = [] ∧ ∀ p ∈ searched, p % WORD_SIZE = 0 ∧ ObjectHeader.isObjectChecked c.map.mem p = true) ∨
    r = .error .assertion ∧ ∃ p ∈ searched, p % WORD_SIZE ≠ 0

/-- With `rounds` rounds the end is reached, and with more there is no difference. -/
def EndsIn (c : LeakCheck) (rounds : Nat) : Prop :=
  (∀ fuel ≥ rounds, traverseUnexploredList fuel c = traverseUnexploredList rounds c ∧ scans fuel c = scans rounds c) ∧
    Ended (traverseUnexploredList rounds c) (scans rounds c)

/-- The bytes below a bound in which a mark may still be set. -/
def unmarkedBytes (bound : Nat) (m : Mem) : Nat := ((Finset.range bound).filter fun b => (m b).toNat % 2 = 0).card

theorem unmarkedBytes_mark {bound p : Nat} {m : Mem} (hp : p < bound) (hck : ObjectHeader.isObjectChecked m p = false) :
    unmarkedBytes bound (ObjectHeader.markObjectChecked m p) < unmarkedBytes bound m := by
  have heven := ObjectHeader.isObjectChecked_eq_false_iff.mp hck
  refine Finset.card_lt_card ((Finset.ssubset_iff_of_subset fun b hb => ?_).mpr ⟨p - 16, ?_, fun hmem => ?_⟩)
  · obtain ⟨hrange, hb⟩ := Finset.mem_filter.mp hb
    refine Finset.mem_filter.mpr ⟨hrange, ?_⟩
    have := mt (ObjectHeader.odd_mark (m := m) (p := p) (b := b))
    omega
  · exact Finset.mem_filter.mpr ⟨Finset.mem_range.mpr (by omega), heven⟩
  · have hodd := ObjectHeader.isObjectChecked_iff.mp (ObjectHeader.isObjectChecked_mark_self (m := m) (p := p))
    have := (Finset.mem_filter.mp hmem).2
    omega

/-- The addresses that a search puts on the list are below the end of the heap. -/
theorem mem_scan_lt {p a : Nat} (h : a ∈ (c.scan p).unexploredObjects) : a ∈ c.unexploredObjects ∨ a < c.heapEnd := by
  rcases List.mem_append.mp h with h | h
  · exact .inl h
  · have hin := (List.mem_filter.mp h).2
    rw [isPossibleHeapPointer, Bool.and_eq_true, decide_eq_true_eq, decide_eq_true_eq] at hin
    exact .inr hin.2

/-- One more round in front. -/
theorem EndsIn.succ {d : LeakCheck} {l : List Nat} {rounds : Nat} (h : EndsIn d rounds)
    (hround : ∀ fuel, traverseUnexploredList (fuel + 1) c = traverseUnexploredList fuel d ∧ scans (fuel + 1) c = l ++ scans fuel d)
    (hfront : ∀ c', traverseUnexploredList rounds d = .ok c' → ∀ p ∈ l, p % WORD_SIZE = 0 ∧
      ObjectHeader.isObjectChecked c'.map.mem p = true) : EndsIn c (rounds + 1) := by
  obtain ⟨hsame, hend⟩ := h
  obtain ⟨hrun, hscans⟩ := hround rounds
  refine ⟨fun fuel hfuel => ?_, ?_⟩
  · obtain ⟨k, rfl⟩ : ∃ k, fuel = k + 1 := ⟨fuel - 1, by omega⟩
    rw [(hround k).1, (hround k).2, hrun, hscans, (hsame k (by omega)).1, (hsame k (by omega)).2]
    exact ⟨rfl, rfl⟩
  · rw [hrun, hscans]
    rcases hend with ⟨c', hok, hempty, hall⟩ | ⟨herr, p, hp, hal⟩
    · refine .inl ⟨c', hok, hempty, fun p hp => ?_⟩
      rcases List.mem_append.mp hp with hp | hp
      · exact hfront c' hok p hp
      · exact hall p hp
    · exact .inr ⟨herr, p, List.mem_append_right _ hp, hal⟩

theorem ends_of_bounded (bound : Nat) (c : LeakCheck) (hlist : ∀ a ∈ c.unexploredObjects, a < bound) (hend : c.heapEnd ≤ bound) :
    ∃ rounds, EndsIn c rounds := by
  induction c using Worklist.exhaust (l := unexploredObjects) (n := fun c => unmarkedBytes bound c.map.mem) with
  | hdone c hc =>
    have hrun : ∀ k, traverseUnexploredList (k + 1) c = .ok c ∧ scans (k + 1) c = [] := fun k => by
      rw [traverseUnexploredList, scans, hc]
      exact ⟨rfl, rfl⟩
    refine ⟨1, fun fuel hfuel => ?_, .inl ⟨c, (hrun 0).1, hc, fun p hp => ?_⟩⟩
    · obtain ⟨k, rfl⟩ : ∃ k, fuel = k + 1 := ⟨fuel - 1, by omega⟩
      rw [(hrun k).1, (hrun k).2, (hrun 0).1, (hrun 0).2]
      exact ⟨rfl, rfl⟩
    · rw [(hrun 0).2] at hp
      cases hp
  | hround c addr rest hc ih =>
    have hrest : ∀ a ∈ rest, a < bound := fun a ha => hlist a (by rw [hc]; exact List.mem_cons_of_mem _ ha)
    rcases round_cases hc with ⟨-, hround⟩ | ⟨p, hp, ⟨hal, hround⟩ | ⟨hal, hround⟩⟩
    · obtain ⟨rounds, h⟩ := ih { c with unexploredObjects := rest } (.inr ⟨rfl, rfl⟩) hrest hend
      exact ⟨rounds + 1, h.succ (l := []) hround fun _ _ p hp => absurd hp List.not_mem_nil⟩
    · -- The object begins at or before the address, so its mark is below the bound.
      have hvalid := (objectOf_spec (scanOf_eq_some.mp hp).1).2
      have hle := (ObjectHeader.isValidAddr_iff.mp hvalid).2.1
      have haddr := hlist addr (by rw [hc]; exact List.mem_cons_self)
      obtain ⟨rounds, h⟩ := ih (scan { c with unexploredObjects := rest } p)
        (.inl (unmarkedBytes_mark (by omega) (scanOf_unchecked hp)))
        (fun a ha => (mem_scan_lt ha).elim (hrest a) fun hlt => Nat.lt_of_lt_of_le hlt hend) hend
      refine ⟨rounds + 1, h.succ (l := [p]) hround fun c' hok q hq => ?_⟩
      rw [List.mem_singleton.mp hq]
      exact ⟨hal, ((kept_checked p).traverse (isObjectChecked_scan (.inl rfl)) hok).1⟩
    · refine ⟨1, fun fuel hfuel => ?_, .inr ⟨(hround 0).1, p, ?_, hal⟩⟩
      · obtain ⟨k, rfl⟩ : ∃ k, fuel = k + 1 := ⟨fuel - 1, by omega⟩
        rw [(hround k).1, (hround k).2, (hround 0).1, (hround 0).2]
        exact ⟨rfl, rfl⟩
      · rw [(hround 0).2]
        exact List.mem_singleton_self p

/-- Whatever memory and the list hold, the search comes to its end, and so does each backward search for the start of an object;
    no object is searched twice. -/
theorem traversal_ends (c : LeakCheck) :
    (∃ rounds, EndsIn c rounds) ∧ (∀ fuel, (scans fuel c).Nodup) ∧
      ∀ addr, ∀ fuel ≥ getIndex addr, c.map.findObjectStartFrom fuel (getIndex addr) = c.map.findObjectStartAddr addr := by
  refine ⟨?_, fun fuel => scans_nodup fuel c, fun addr fuel hfuel => findObjectStartFrom_enough hfuel⟩
  obtain ⟨bound, hbound⟩ : ∃ bound, ∀ a ∈ c.unexploredObjects, a < bound :=
    ⟨c.unexploredObjects.sum + 1, fun a ha => Nat.lt_succ_of_le (List.le_sum_of_mem ha)⟩
  exact ends_of_bounded (bound + c.heapEnd) c (fun a ha => Nat.lt_add_right _ (hbound a ha)) (Nat.le_add_left ..)

end LeakCheck

end DoubleTake
