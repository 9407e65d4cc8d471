import Mathlib.Data.Finset.Card
import Mathlib.Data.Finset.Range
import DoubleTake.Theorems.Traversal
import DoubleTake.Theorems.Runs

/-! What the check for leaks finds. Its search follows an address only into an object whose size is a power of two, and it
    takes an address behind a sentinel word for the start of an object; where neither matters it computes reachability. -/

namespace DoubleTake

open SentinelMap

/-! ### Marks -/

namespace ObjectHeader

variable {m m' : Mem} {p : Nat}

theorem getObjectSize_ge (hp : 16 ≤ p) : 2 ^ 24 * (m (p - 9)).toNat ≤ getObjectSize m p := by
  obtain ⟨h₁, h₂, h₃⟩ : p - 12 + 1 = p - 11 ∧ p - 11 + 1 = p - 10 ∧ p - 10 + 1 = p - 9 := by omega
  simp only [getObjectSize, Mem.read, h₁, h₂, h₃]
  omega

end ObjectHeader

/-- The bytes of a sentinel. None of them may be the first byte of a block size or the last one of an object size. -/
theorem sentinel_bytes {m : Mem} {a b : Nat} (h : m.read a 8 = SENTINEL_WORD) (h₁ : a ≤ b) (h₂ : b < a + 8) :
    (m b).toNat % 4 = 2 ∧ 186 ≤ (m b).toNat := by
  have hsame : m.read a 8 = (Mem.write m a 8 SENTINEL_WORD).read a 8 := by
    rw [h, Mem.read_write_of_lt m a (by decide)]
  rw [Mem.agree_of_read hsame b h₁ h₂, Mem.write_of_mem h₁ h₂]
  have hbytes : ∀ i < 8, (UInt8.ofNat (SENTINEL_WORD / 256 ^ i)).toNat % 4 = 2 ∧
      186 ≤ (UInt8.ofNat (SENTINEL_WORD / 256 ^ i)).toNat := by decide
  exact hbytes (b - a) (by omega)

/-! ### The heap and what is reachable in it -/

/-- A heap as `AdaptAppHeap` lays it out: blocks by the address of their object, with their sizes. Headers and first
    sentinels are intact, the first sentinels are marked, no mark lies outside of the blocks or on a size, and inside of an
    object only the sentinels of `memalign` are marked. -/
structure LaidOut (map : SentinelMap) (stop : Nat) (blocks : Nat → Option Nat) : Prop where
  placed : ∀ {p size}, blocks p = some size → Placed stop p size
  apart : ∀ {p size q size'}, blocks p = some size → blocks q = some size' → p ≠ q → p + size + 32 ≤ q ∨ q + size' + 32 ≤ p
  size : ∀ {p size}, blocks p = some size → ObjectHeader.getSize map.mem p = size
  object : ∀ {p size}, blocks p = some size → ObjectHeader.getObjectSize map.mem p ≤ size
  first : ∀ {p size}, blocks p = some size → map.word (p - 8) = SENTINEL_WORD
  marked : ∀ {p size}, blocks p = some size → map.isSet (p - 8) = true
  covered : ∀ {w}, HeapWord w → map.isSet w = true → ∃ p size, blocks p = some size ∧ p ≤ w + 8 ∧ w < p + size + 16
  inside : ∀ {p size w}, blocks p = some size → HeapWord w → p ≤ w → w + 8 ≤ p + ObjectHeader.getObjectSize map.mem p →
    map.isSet w = true → map.word w = MEMALIGN_SENTINEL_WORD

/-- The heap of the runs is laid out so. -/
theorem HeapInv.laidOut {strict : Bool} {h : XPHeap} {B : Layout} (hi : HeapInv strict h B)
    (hobj : ∀ p b, B p = some b → ObjectHeader.getObjectSize h.map.mem p ≤ b.size) :
    LaidOut h.map h.xheap.position fun p => (B p).map (·.size) := by
  have hblock : ∀ {p size}, (B p).map (·.size) = some size → ∃ b, B p = some b ∧ b.size = size :=
    fun h => Option.map_eq_some_iff.mp h
  refine ⟨fun hp => ?_, fun hp hq hne => ?_, fun hp => ?_, fun hp => ?_, fun hp => ?_, fun hp => ?_, fun hw hset => ?_,
    fun {p size w} hp hw h₁ h₂ hset => ?_⟩
  · obtain ⟨b, hB, rfl⟩ := hblock hp
    exact hi.placed hB
  · obtain ⟨b, hB, rfl⟩ := hblock hp
    obtain ⟨c, hC, rfl⟩ := hblock hq
    exact hi.apart hB hC hne
  · obtain ⟨b, hB, rfl⟩ := hblock hp
    exact (hi.block hB).size
  · obtain ⟨b, hB, rfl⟩ := hblock hp
    exact hobj _ b hB
  · obtain ⟨b, hB, rfl⟩ := hblock hp
    exact (hi.block hB).first
  · obtain ⟨b, hB, rfl⟩ := hblock hp
    exact (hi.block hB).marked
  · obtain ⟨p, b, hB, h₁, h₂⟩ := hi.covered hw hset
    refine ⟨p, b.size, by rw [hB]; rfl, ?_, h₂⟩
    have hlow := (hi.placed hB).low
    have hbits := (hi.block hB).bits _ hw h₁ h₂ hset
    simp only [GuardWord, guardStart] at hbits
    omega
  · obtain ⟨b, hB, rfl⟩ := hblock hp
    have hle := hobj p b hB
    have hlow := (hi.placed hB).low
    have hbits := (hi.block hB).bits w hw (by omega) (by omega) hset
    simp only [GuardWord, guardStart] at hbits
    omega

section
variable (blocks : Nat → Option Nat) (m : Mem) (roots : Roots)

/-- A word inside of `[start, stop)` holds the value. -/
def WordIn (start stop a : Nat) : Prop := ∃ w, w % WORD_SIZE = 0 ∧ start ≤ w ∧ w + WORD_SIZE ≤ stop ∧ a = m.read w WORD_SIZE

/-- A register or a word of the stack or of a global region holds the value. A region that begins at 0 is not there. -/
def Roots.Holds (a : Nat) : Prop :=
  a ∈ roots.registers ∨ WordIn m roots.stack.start roots.stack.stop a ∨
    ∃ r ∈ roots.globals, r.start ≠ 0 ∧ WordIn m r.start r.stop a

/-- The address lies in the object that begins at `p`. -/
def Covers (p a : Nat) : Prop := p ≤ a ∧ a < p + ObjectHeader.getObjectSize m p

/-- The objects that are reachable: from the roots, and from word to word through objects. No address lies in a freed object,
    which has size 0. -/
inductive Reaches : Nat → Prop where
  | root {a p : Nat} : roots.Holds m a → (blocks p).isSome → Covers m p a → Reaches p
  | inside {q a p : Nat} : Reaches q → WordIn m q (q + ObjectHeader.getObjectSize m q) a → (blocks p).isSome → Covers m p a → Reaches p

/-- An object that is reachable has not been freed. -/
theorem Reaches.object {blocks : Nat → Option Nat} {m : Mem} {roots : Roots} {p : Nat} (h : Reaches blocks m roots p) :
    (blocks p).isSome ∧ ObjectHeader.getObjectSize m p ≠ 0 := by
  cases h with
  | root _ hp hcov =>
    have h₁ := hcov.1
    have h₂ := hcov.2
    exact ⟨hp, by omega⟩
  | inside _ _ hp hcov =>
    have h₁ := hcov.1
    have h₂ := hcov.2
    exact ⟨hp, by omega⟩

/-- The addresses from which the search may go on. -/
def Followed (a : Nat) : Prop :=
  roots.Holds m a ∨ ∃ q, Reaches blocks m roots q ∧ WordIn m q (q + ObjectHeader.getObjectSize m q) a

/-- An object that has not been freed and is not reachable. -/
def Leaked (p : Nat) : Prop := (blocks p).isSome ∧ ObjectHeader.getObjectSize m p ≠ 0 ∧ ¬ Reaches blocks m roots p

end

/-- No address that is followed is taken for one of an object that is not there, and none inside of an object stands right
    behind a sentinel word, which is then taken for the end of a header. -/
structure Unmistaken (blocks : Nat → Option Nat) (map : SentinelMap) (roots : Roots) (stop : Nat) : Prop where
  present : ∀ {a q}, Followed blocks map.mem roots a → USER_HEAP_BASE + 16 < a → a < stop → LeakCheck.objectOf map a = some q →
    (blocks q).isSome
  behind : ∀ {a p}, Followed blocks map.mem roots a → (blocks p).isSome → Covers map.mem p a →
    ObjectHeader.isGoodObject map.mem a = true → a = p

/-- With enough rounds the check returns whether there are leaked objects, and puts exactly these into the map of leaks. -/
def ChecksLeaks (blocks : Nat → Option Nat) (map : SentinelMap) (roots : Roots) (stop : Nat) : Prop :=
  ∃ rounds, ∀ fuel ≥ rounds, ∃ hasLeakage c, LeakCheck.doSlowLeakCheck fuel map roots USER_HEAP_BASE stop = .ok (hasLeakage, c) ∧
    (hasLeakage = true ↔ ∃ p, Leaked blocks map.mem roots p) ∧
    ∀ p size, (p, size) ∈ c.leaks ↔ Leaked blocks map.mem roots p ∧ size = ObjectHeader.getObjectSize map.mem p

/-! ### The search -/

variable {blocks : Nat → Option Nat} {map : SentinelMap} {stop : Nat} {m : Mem}

/-- Only marks have been set since `m₀`. -/
structure Marks (blocks : Nat → Option Nat) (m₀ m : Mem) : Prop where
  outside : ∀ a, (∀ p, (blocks p).isSome → a ≠ p - 16) → m a = m₀ a
  header : ∀ p, (blocks p).isSome → (m (p - 16)).toNat / 2 = (m₀ (p - 16)).toNat / 2

theorem Marks.refl (m : Mem) : Marks blocks m m := ⟨fun _ _ => rfl, fun _ _ => rfl⟩

/-- The first byte of a header changes in its lowest bit. -/
theorem Marks.set {m₀ : Mem} (h : Marks blocks m₀ m) {p : Nat} (hp : (blocks p).isSome) (hl : ∀ q, (blocks q).isSome → 16 ≤ q)
    {v : UInt8} (hv : v.toNat / 2 = (m (p - 16)).toNat / 2) : Marks blocks m₀ (m.set (p - 16) v) := by
  refine ⟨fun a ha => ?_, fun q hq => ?_⟩
  · rw [Mem.set_of_ne (ha p hp)]
    exact h.outside a ha
  · by_cases hqp : q = p
    · subst hqp
      rw [Mem.set_self, hv]
      exact h.header q hq
    · have h₁ := hl p hp
      have h₂ := hl q hq
      rw [Mem.set_of_ne (by omega)]
      exact h.header q hq

theorem LaidOut.low (hl : LaidOut map stop blocks) {p : Nat} (hp : (blocks p).isSome) : USER_HEAP_BASE + 32 ≤ p := by
  obtain ⟨size, hB⟩ := Option.isSome_iff_exists.mp hp
  exact (hl.placed hB).low

theorem LaidOut.aligned (hl : LaidOut map stop blocks) {p : Nat} (hp : (blocks p).isSome) : p % WORD_SIZE = 0 := by
  obtain ⟨size, hB⟩ := Option.isSome_iff_exists.mp hp
  have hal := (hl.placed hB).aligned
  simp only [WORD_SIZE]
  omega

theorem LaidOut.mark (hl : LaidOut map stop blocks) (hm : Marks blocks map.mem m) {p : Nat} (hp : (blocks p).isSome) :
    Marks blocks map.mem (ObjectHeader.markObjectChecked m p) := by
  have hlow : ∀ q, (blocks q).isSome → 16 ≤ q := fun q hq => by have := hl.low hq; omega
  obtain ⟨v, hv, hmark⟩ := @ObjectHeader.markObjectChecked_eq m p
  rw [hmark]
  exact hm.set hp hlow (by omega)

/-- Apart from the headers nothing changes. -/
theorem LaidOut.agree (hl : LaidOut map stop blocks) (hm : Marks blocks map.mem m) {p size : Nat} (hB : blocks p = some size) :
    Mem.Agree map.mem m (p - 12) (p + size + 16) := by
  intro a h₁ h₂
  refine (hm.outside a fun q hq heq => ?_).symm
  obtain ⟨size', hC⟩ := Option.isSome_iff_exists.mp hq
  have hlow := hl.low hq
  have hlow' := (hl.placed hB).low
  by_cases hpq : p = q
  · omega
  · have := hl.apart hB hC hpq
    omega

/-- Headers and first sentinels are as they were, apart from the marks. -/
structure Headers (blocks : Nat → Option Nat) (m₀ m : Mem) : Prop where
  rest : ∀ p, (blocks p).isSome → Mem.Agree m₀ m (p - 15) p
  mark : ∀ p, (blocks p).isSome → (m (p - 16)).toNat / 2 = (m₀ (p - 16)).toNat / 2

theorem LaidOut.headers (hl : LaidOut map stop blocks) (hm : Marks blocks map.mem m) : Headers blocks map.mem m := by
  refine ⟨fun p hp a h₁ h₂ => (hm.outside a fun q hq heq => ?_).symm, hm.header⟩
  obtain ⟨size, hB⟩ := Option.isSome_iff_exists.mp hp
  obtain ⟨size', hC⟩ := Option.isSome_iff_exists.mp hq
  have hlow := hl.low hp
  have hlow' := hl.low hq
  by_cases hpq : p = q
  · omega
  · have := hl.apart hB hC hpq
    omega

/-- The mark of an object is set or cleared. -/
theorem LaidOut.headers_set (hl : LaidOut map stop blocks) (hh : Headers blocks map.mem m) {p : Nat} (hp : (blocks p).isSome)
    {v : UInt8} (hv : v.toNat / 2 = (m (p - 16)).toNat / 2) : Headers blocks map.mem (m.set (p - 16) v) := by
  obtain ⟨size, hB⟩ := Option.isSome_iff_exists.mp hp
  have hlow := hl.low hp
  refine ⟨fun q hq a h₁ h₂ => ?_, fun q hq => ?_⟩
  · obtain ⟨size', hC⟩ := Option.isSome_iff_exists.mp hq
    have hlowq := hl.low hq
    have hne : a ≠ p - 16 := by
      by_cases hqp : q = p
      · omega
      · have := hl.apart hC hB hqp
        omega
    rw [Mem.set_of_ne hne]
    exact hh.rest q hq a h₁ h₂
  · by_cases hqp : q = p
    · subst hqp
      rw [Mem.set_self, hv]
      exact hh.mark q hq
    · have hlowq := hl.low hq
      rw [Mem.set_of_ne (by omega)]
      exact hh.mark q hq

theorem LaidOut.getObjectSize_eq (hl : LaidOut map stop blocks) (hh : Headers blocks map.mem m) {p : Nat} (hp : (blocks p).isSome) :
    ObjectHeader.getObjectSize m p = ObjectHeader.getObjectSize map.mem p := by
  have hlow := hl.low hp
  exact (Mem.read_congr ((hh.rest p hp).mono (by omega) (by omega))).symm

/-- The lowest byte of a header, in which the mark is. -/
theorem LaidOut.header_byte (hl : LaidOut map stop blocks) (hh : Headers blocks map.mem m) {p : Nat} (hp : (blocks p).isSome) :
    (map.mem (p - 16)).toNat % 16 = 0 ∧ (m (p - 16)).toNat % 16 ≤ 1 := by
  obtain ⟨size, hB⟩ := Option.isSome_iff_exists.mp hp
  have hsize := hl.size hB
  have h16 := (hl.placed hB).size.bounds.2.1
  have hbyte := (ObjectHeader.getSize_byte (m := map.mem) (p := p)).1
  have hmark := hh.mark p hp
  omega

/-- The block size and the mark. -/
theorem LaidOut.getSize_eq (hl : LaidOut map stop blocks) (hh : Headers blocks map.mem m) {p size : Nat} (hB : blocks p = some size) :
    ObjectHeader.getSize m p / 2 * 2 = size := by
  have hp : (blocks p).isSome := by
    rw [hB]
    rfl
  have hlow := hl.low hp
  have hsize := hl.size hB
  have h16 := (hl.placed hB).size.bounds.2.1
  obtain ⟨hbyte, hrest⟩ := ObjectHeader.getSize_byte (m := map.mem) (p := p)
  obtain ⟨hbyte', hrest'⟩ := ObjectHeader.getSize_byte (m := m) (p := p)
  have hmark := hh.mark p hp
  have hsame : m.read (p - 16 + 1) 3 = map.mem.read (p - 16 + 1) 3 :=
    (Mem.read_congr ((hh.rest p hp).mono (by omega) (by omega))).symm
  omega

/-- No header byte lies in a sentinel. -/
theorem LaidOut.sentinel_congr (hl : LaidOut map stop blocks) (hm : Marks blocks map.mem m) {a : Nat} :
    m.read a 8 = SENTINEL_WORD ↔ map.mem.read a 8 = SENTINEL_WORD := by
  constructor <;> intro h
  · rw [← h]
    refine Mem.read_congr fun b h₁ h₂ => (hm.outside b fun p hp heq => ?_).symm
    have hbyte := (sentinel_bytes h h₁ h₂).1
    rw [heq] at hbyte
    have := (hl.header_byte (hl.headers hm) hp).2
    omega
  · rw [← h]
    refine Mem.read_congr fun b h₁ h₂ => hm.outside b fun p hp heq => ?_
    have hbyte := (sentinel_bytes h h₁ h₂).1
    rw [heq] at hbyte
    have := (hl.header_byte (hl.headers hm) hp).1
    omega

theorem LaidOut.isGoodObject_eq (hl : LaidOut map stop blocks) (hm : Marks blocks map.mem m) (a : Nat) :
    ObjectHeader.isGoodObject m a = ObjectHeader.isGoodObject map.mem a := by
  rw [Bool.eq_iff_iff, ObjectHeader.isGoodObject, ObjectHeader.isGoodObject, beq_iff_eq, beq_iff_eq]
  exact hl.sentinel_congr hm

/-- Nor does one lie where the size of an object would be, in front of a sentinel. -/
theorem LaidOut.isValidAddr_eq (hl : LaidOut map stop blocks) (hm : Marks blocks map.mem m) {q : Nat} (hq : 16 ≤ q)
    (hgood : ObjectHeader.isGoodObject map.mem q = true) (a : Nat) :
    ObjectHeader.isValidAddr m q a = ObjectHeader.isValidAddr map.mem q a := by
  rw [ObjectHeader.isGoodObject, beq_iff_eq] at hgood
  have hsize : ObjectHeader.getObjectSize m q = ObjectHeader.getObjectSize map.mem q := by
    refine Mem.read_congr fun b h₁ h₂ => hm.outside b fun p hp heq => ?_
    obtain ⟨size, hB⟩ := Option.isSome_iff_exists.mp hp
    have hlow := hl.low hp
    have hbyte := (sentinel_bytes hgood (show q - 8 ≤ p - 9 by omega) (by omega)).2
    have hge := @ObjectHeader.getObjectSize_ge map.mem p (by omega)
    have hle := hl.object hB
    have hmax := (hl.placed hB).size.bounds.2.2
    omega
  rw [ObjectHeader.isValidAddr, ObjectHeader.isValidAddr, hsize]

/-- The backward search reads marked words only, and none of them holds a header byte. -/
theorem LaidOut.findObjectStartFrom_eq (hl : LaidOut map stop blocks) (hm : Marks blocks map.mem m) (fuel item : Nat) :
    { map with mem := m }.findObjectStartFrom fuel item = map.findObjectStartFrom fuel item := by
  induction fuel generalizing item with
  | zero => rfl
  | succ fuel ih =>
    simp only [findObjectStartFrom]
    cases hlast : map.bitmap.getLastBit item with
    | none => rfl
    | some j =>
      rw [Bitmap.getLastBit_eq, Bits.lastSet_eq_some] at hlast
      have hset : map.isSet (getHeapAddressFromItem j) = true := by
        rw [isSet, getIndex_item]
        exact hlast.2.1
      obtain ⟨p, size, hB, h₁, h₂⟩ := hl.covered (heapWord_item j) hset
      have hal := (hl.placed hB).aligned
      have h16 := (hl.placed hB).size.bounds.2.1
      have hword := (heapWord_item j).2
      have hsame : { map with mem := m }.word (getHeapAddressFromItem j) = map.word (getHeapAddressFromItem j) :=
        Mem.read_congr ((hl.agree hm hB).symm.mono (by omega) (by omega))
      simp only [hsame, ih]

/-- From inside of an object the search comes to its first sentinel, over the sentinels of `memalign`. -/
theorem LaidOut.findObjectStartAddr_inside (hl : LaidOut map stop blocks) {p a size : Nat} (hB : blocks p = some size)
    (ha : Covers map.mem p a) : map.findObjectStartAddr a = some p := by
  have hlow := (hl.placed hB).low
  have hal := (hl.placed hB).aligned
  have hfirst : HeapWord (p - 8) := ⟨by omega, by omega⟩
  have hgetIndex : getIndex (p - 8) + 1 = getIndex p := by
    simp only [getIndex, WORD_SIZE]
    omega
  have hloop : ∀ fuel item, getIndex (p - 8) < item → item ≤ fuel → item ≤ getIndex a → map.findObjectStartFrom fuel item = some p := by
    intro fuel
    induction fuel with
    | zero => omega
    | succ fuel ih =>
      intro item h₁ h₂ h₃
      have hset : map.bitmap.isBitSet (getIndex (p - 8)) = true := hl.marked hB
      simp only [findObjectStartFrom]
      cases hlast : map.bitmap.getLastBit item with
      | none =>
        rw [Bitmap.getLastBit_eq, Bits.lastSet_eq_none] at hlast
        rw [hlast _ h₁] at hset
        cases hset
      | some j =>
        rw [Bitmap.getLastBit_eq, Bits.lastSet_eq_some] at hlast
        obtain ⟨hj, hbit, hgap⟩ := hlast
        dsimp only
        by_cases hfound : j = getIndex (p - 8)
        · rw [hfound, item_getIndex hfirst, if_pos (hl.first hB)]
          congr 1
          simp only [SENTINEL_SIZE, WORD_SIZE]
          omega
        -- A marked word further up is one of `memalign`.
        · have hgt : getIndex (p - 8) < j := by
            by_contra hle
            rw [hgap _ (by omega) h₁] at hset
            cases hset
          have hin : map.word (getHeapAddressFromItem j) = MEMALIGN_SENTINEL_WORD := by
            obtain ⟨hp₁, hp₂⟩ := ha
            refine hl.inside hB (heapWord_item j) ?_ ?_ (by rw [isSet, getIndex_item]; exact hbit) <;>
            · simp only [getIndex, getHeapAddressFromItem, WORD_SIZE, USER_HEAP_BASE] at *
              omega
          rw [hin, if_neg (by decide), if_pos rfl]
          exact ih j hgt (by omega) (by omega)
  obtain ⟨hp₁, hp₂⟩ := ha
  refine hloop _ _ ?_ le_rfl le_rfl
  simp only [getIndex, WORD_SIZE] at *
  omega

theorem findObjectStartFrom_low {fuel item q : Nat} (h : map.findObjectStartFrom fuel item = some q) : USER_HEAP_BASE ≤ q := by
  induction fuel generalizing item with
  | zero => cases h
  | succ fuel ih =>
    simp only [findObjectStartFrom] at h
    split at h
    · cases h
    next j _ =>
      split at h
      · rw [Option.some.injEq] at h
        have := (heapWord_item j).1
        omega
      · split at h
        · exact ih h
        · cases h

namespace LeakCheck

/-- Marks do not change what an address is taken for. -/
theorem objectOf_eq (hl : LaidOut map stop blocks) (hm : Marks blocks map.mem m) {a : Nat} (ha : 16 ≤ a) :
    objectOf { map with mem := m } a = objectOf map a := by
  unfold objectOf
  rw [show findObjectStartAddr { map with mem := m } a = map.findObjectStartAddr a from hl.findObjectStartFrom_eq hm _ _]
  simp only [hl.isGoodObject_eq hm]
  split
  · cases hfind : map.findObjectStartAddr a with
    | none => rfl
    | some q =>
      have hlow : USER_HEAP_BASE ≤ q := findObjectStartFrom_low hfind
      simp only [USER_HEAP_BASE] at hlow
      dsimp only
      by_cases hq : ObjectHeader.isGoodObject map.mem q = true
      · rw [hl.isValidAddr_eq hm (by omega) hq]
      · rw [if_pos (.inl hq), if_pos (.inl hq)]
  next hgood =>
    rw [hl.isValidAddr_eq hm ha (not_not.mp hgood)]

section
variable {roots : Roots}

/-- What an address that is followed is taken for. -/
theorem objectOf_iff (hl : LaidOut map stop blocks) (hu : Unmistaken blocks map roots stop) {a p : Nat}
    (ha : Followed blocks map.mem roots a) (h₁ : USER_HEAP_BASE + 16 < a) (h₂ : a < stop) :
    objectOf map a = some p ↔ (blocks p).isSome ∧ Covers map.mem p a ∧ (ObjectHeader.getObjectSize map.mem p).isPowerOfTwo := by
  refine ⟨fun h => ?_, fun ⟨hp, hcov, hpow⟩ => ?_⟩
  · obtain ⟨hpow, hcov⟩ := ObjectHeader.isValidAddr_iff.mp (objectOf_spec h).2
    exact ⟨hu.present ha h₁ h₂ h, hcov, hpow⟩
  · obtain ⟨size, hB⟩ := Option.isSome_iff_exists.mp hp
    have hvalid : ObjectHeader.isValidAddr map.mem p a = true := ObjectHeader.isValidAddr_iff.mpr ⟨hpow, hcov⟩
    have hgood : ObjectHeader.isGoodObject map.mem p = true := beq_iff_eq.mpr (hl.first hB)
    unfold objectOf
    split
    · rw [hl.findObjectStartAddr_inside hB hcov]
      exact if_neg (by rw [hgood, hvalid]; simp)
    next hstart =>
      have heq : a = p := hu.behind ha hp hcov (not_not.mp hstart)
      subst heq
      exact if_pos hvalid

/-- The words that a search reads. -/
theorem mem_wordsIn {start stop a : Nat} (hs : start % WORD_SIZE = 0) : a ∈ wordsIn m start stop ↔ WordIn m start stop a := by
  simp only [wordsIn, List.mem_map, List.mem_range, WordIn, WORD_SIZE] at *
  constructor
  · rintro ⟨i, hi, rfl⟩
    exact ⟨start + i * 8, by omega, by omega, by omega, rfl⟩
  · intro ⟨w, h₁, h₂, h₃, ha⟩
    refine ⟨(w - start) / 8, by omega, ?_⟩
    rw [ha, show start + (w - start) / 8 * 8 = w by omega]

/-- The words of the roots, in the order of the search. -/
def rootWords (m : Mem) (roots : Roots) : List Nat :=
  roots.registers ++ wordsIn m roots.stack.start roots.stack.stop ++
    roots.globals.flatMap fun r => if r.start ≠ 0 then wordsIn m r.start r.stop else []

theorem mem_rootWords {a : Nat} : a ∈ rootWords m roots ↔ roots.Holds m a := by
  have hglobals : (a ∈ roots.globals.flatMap fun r => if r.start ≠ 0 then wordsIn m r.start r.stop else []) ↔
      ∃ r ∈ roots.globals, r.start ≠ 0 ∧ WordIn m r.start r.stop a := by
    rw [List.mem_flatMap]
    refine exists_congr fun r => and_congr_right fun _ => ?_
    split
    next h => rw [mem_wordsIn r.aligned, and_iff_right h]
    next h => simp [h]
  rw [rootWords, List.mem_append, List.mem_append, mem_wordsIn roots.stack.aligned, hglobals, or_assoc]
  rfl

theorem searchHeapPointersInsideGlobals_eq (c : LeakCheck) (globals : List Region) : c.searchHeapPointersInsideGlobals globals =
    .ok { c with unexploredObjects := c.unexploredObjects ++
      (globals.flatMap fun r => if r.start ≠ 0 then wordsIn c.map.mem r.start r.stop else []).filter c.isPossibleHeapPointer } := by
  unfold searchHeapPointersInsideGlobals
  induction globals generalizing c with
  | nil => simp [pure, Except.pure]
  | cons r globals ih =>
    rw [List.foldlM_cons]
    split
    next h =>
      rw [Except.bind_of_ok (c.searchHeapPointers_eq r.aligned), ih, List.flatMap_cons, if_pos h, List.filter_append, List.append_assoc]
      rfl
    next h =>
      rw [Except.bind_of_ok rfl, ih]
      simp [h]

/-- What the entries of the list lead to, what an object adds to it, and what it begins with. -/
def entriesOf (map : SentinelMap) (stop p : Nat) : List Nat :=
  (wordsIn map.mem p (p + ObjectHeader.getObjectSize map.mem p)).filter fun a => decide (USER_HEAP_BASE + 16 < a) && decide (a < stop)

def firstEntries (map : SentinelMap) (roots : Roots) (stop : Nat) : List Nat :=
  (rootWords map.mem roots).filter fun a => decide (USER_HEAP_BASE + 16 < a) && decide (a < stop)

theorem mem_entriesOf {p a : Nat} (hp : p % WORD_SIZE = 0) : a ∈ entriesOf map stop p ↔
    WordIn map.mem p (p + ObjectHeader.getObjectSize map.mem p) a ∧ USER_HEAP_BASE + 16 < a ∧ a < stop := by
  rw [entriesOf, List.mem_filter, mem_wordsIn hp, Bool.and_eq_true, decide_eq_true_eq, decide_eq_true_eq]

theorem mem_firstEntries {a : Nat} :
    a ∈ firstEntries map roots stop ↔ roots.Holds map.mem a ∧ USER_HEAP_BASE + 16 < a ∧ a < stop := by
  rw [firstEntries, List.mem_filter, mem_rootWords, Bool.and_eq_true, decide_eq_true_eq, decide_eq_true_eq]

/-- The objects that the search comes to. -/
def Found (map : SentinelMap) (roots : Roots) (stop p : Nat) : Prop :=
  Worklist.Reached (scanOf map) (entriesOf map stop) (firstEntries map roots stop) p

/-- The list holds addresses of the heap. -/
theorem entry_range {a : Nat} (h : Worklist.Entry (scanOf map) (entriesOf map stop) (firstEntries map roots stop) a) :
    USER_HEAP_BASE + 16 < a ∧ a < stop := by
  have hmem : ∃ words : List Nat, a ∈ words.filter fun a => decide (USER_HEAP_BASE + 16 < a) && decide (a < stop) := by
    rcases h with h | ⟨p, -, h⟩
    · exact ⟨_, h⟩
    · exact ⟨_, h⟩
  obtain ⟨words, hmem⟩ := hmem
  simpa using (List.mem_filter.mp hmem).2

/-- In the beginning an object has no mark. -/
theorem scanOf_of_some (hl : LaidOut map stop blocks) {a p : Nat} (hp : (blocks p).isSome) (hobj : objectOf map a = some p) :
    scanOf map a = some p := by
  obtain ⟨-, hcov⟩ := ObjectHeader.isValidAddr_iff.mp (objectOf_spec hobj).2
  have hbyte := (hl.header_byte (hl.headers (.refl _)) hp).1
  exact scanOf_eq_some.mpr ⟨hobj, doCheckObject_iff.mpr ⟨by omega, ObjectHeader.isObjectChecked_eq_false_iff.mpr (by omega)⟩⟩

/-- What an address that is followed leads to. -/
theorem scanOf_iff (hl : LaidOut map stop blocks) (hu : Unmistaken blocks map roots stop) {a p : Nat}
    (ha : Followed blocks map.mem roots a) (h₁ : USER_HEAP_BASE + 16 < a) (h₂ : a < stop) :
    scanOf map a = some p ↔ (blocks p).isSome ∧ Covers map.mem p a ∧ (ObjectHeader.getObjectSize map.mem p).isPowerOfTwo := by
  rw [← objectOf_iff hl hu ha h₁ h₂]
  exact ⟨fun h => (scanOf_eq_some.mp h).1, fun h => scanOf_of_some hl ((objectOf_iff hl hu ha h₁ h₂).mp h).1 h⟩

/-- An object that the search comes to is reachable. -/
theorem found_spec (hl : LaidOut map stop blocks) (hu : Unmistaken blocks map roots stop) {p : Nat} (h : Found map roots stop p) :
    (blocks p).isSome ∧ Reaches blocks map.mem roots p ∧ (ObjectHeader.getObjectSize map.mem p).isPowerOfTwo := by
  induction h with
  | root ha ht =>
    obtain ⟨hholds, h₁, h₂⟩ := mem_firstEntries.mp ha
    obtain ⟨hp, hcov, hpow⟩ := (scanOf_iff hl hu (.inl hholds) h₁ h₂).mp ht
    exact ⟨hp, .root hholds hp hcov, hpow⟩
  | next _ ha ht ih =>
    obtain ⟨hq, hreach, -⟩ := ih
    obtain ⟨hword, h₁, h₂⟩ := (mem_entriesOf (hl.aligned hq)).mp ha
    obtain ⟨hp, hcov, hpow⟩ := (scanOf_iff hl hu (.inr ⟨_, hreach, hword⟩) h₁ h₂).mp ht
    exact ⟨hp, .inside hreach hword hp hcov, hpow⟩

theorem wordsIn_congr {m' : Mem} {start stop : Nat} (h : Mem.Agree m m' start stop) : wordsIn m start stop = wordsIn m' start stop := by
  refine List.map_congr_left fun i hi => Mem.read_congr (h.mono ?_ ?_)
  · omega
  · rw [List.mem_range] at hi
    simp only [WORD_SIZE] at *
    omega

/-- The state of the search: marks are all that has changed in memory, and they are what has been visited. -/
structure Searching (blocks : Nat → Option Nat) (map : SentinelMap) (roots : Roots) (stop : Nat) (c : LeakCheck) : Prop where
  same : c.map = { map with mem := c.map.mem }
  heapBegin : c.heapBegin = USER_HEAP_BASE + 16
  heapEnd : c.heapEnd = stop
  leaks : c.leaks = []
  marks : Marks blocks map.mem c.map.mem
  progress : Worklist.Progress (scanOf map) (entriesOf map stop) (firstEntries map roots stop)
    (fun p => (blocks p).isSome ∧ ObjectHeader.isObjectChecked c.map.mem p = true) c.unexploredObjects

variable {c : LeakCheck}

/-- The words of an object are those that it had in the beginning. -/
theorem Searching.entries_eq (hl : LaidOut map stop blocks) (h : Searching blocks map roots stop c) {p size : Nat} (hB : blocks p = some size) :
    (wordsIn c.map.mem p (p + ObjectHeader.getObjectSize c.map.mem p)).filter c.isPossibleHeapPointer = entriesOf map stop p := by
  have hle := hl.object hB
  have hagree := (hl.agree h.marks hB).mono (show p - 12 ≤ p by omega)
    (show p + ObjectHeader.getObjectSize map.mem p ≤ p + size + 16 by omega)
  rw [hl.getObjectSize_eq (hl.headers h.marks) (by rw [hB]; rfl), ← wordsIn_congr hagree, entriesOf]
  refine List.filter_congr fun x _ => ?_
  rw [isPossibleHeapPointer, h.heapBegin, h.heapEnd]

theorem Searching.listed (h : Searching blocks map roots stop c) {a : Nat} (ha : a ∈ c.unexploredObjects) :
    Worklist.Entry (scanOf map) (entriesOf map stop) (firstEntries map roots stop) a :=
  h.progress.listed a ha

/-- An address is taken for what it was taken for in the beginning, and only an object of the heap has got a mark since. -/
theorem Searching.scanOf_iff (hl : LaidOut map stop blocks) (h : Searching blocks map roots stop c) {a p : Nat} (ha : a ∈ c.unexploredObjects) :
    scanOf c.map a = some p ↔
      scanOf map a = some p ∧ ¬ ((blocks p).isSome ∧ ObjectHeader.isObjectChecked c.map.mem p = true) := by
  obtain ⟨hlow, -⟩ := entry_range (h.listed ha)
  have hobj : objectOf c.map a = objectOf map a := by
    rw [h.same]
    exact objectOf_eq hl h.marks (by omega)
  rw [scanOf_eq_some, scanOf_eq_some, hobj, and_assoc, doCheckObject_iff, doCheckObject_iff]
  refine and_congr_right fun hp => ?_
  -- The object is not free, before and after.
  have hfree : ObjectHeader.getObjectSize map.mem p ≠ 0 := by
    obtain ⟨-, hcov⟩ := ObjectHeader.isValidAddr_iff.mp (objectOf_spec hp).2
    omega
  have hfree' : ObjectHeader.getObjectSize c.map.mem p ≠ 0 := by
    obtain ⟨-, hcov⟩ := ObjectHeader.isValidAddr_iff.mp (objectOf_spec (hobj.trans hp)).2
    omega
  rw [and_iff_right hfree, and_iff_right hfree', ← Bool.not_eq_true, ← Bool.not_eq_true, ObjectHeader.isObjectChecked_iff,
    ObjectHeader.isObjectChecked_iff]
  by_cases hreal : (blocks p).isSome
  · have hbyte := (hl.header_byte (hl.headers (.refl _)) hreal).1
    exact ⟨fun hck => ⟨by omega, fun hmark => hck hmark.2⟩, fun ⟨_, hck⟩ hmark => hck ⟨hreal, hmark⟩⟩
  · rw [h.marks.outside (p - 16) fun q hq heq => ?_]
    · exact ⟨fun hck => ⟨hck, fun hmark => hreal hmark.1⟩, And.left⟩
    · have hlowq := hl.low hq
      exact hreal (show q = p by omega ▸ hq)

/-- One round: the address leads to nothing new. -/
theorem Searching.skip (hl : LaidOut map stop blocks) (h : Searching blocks map roots stop c) {a : Nat} {rest : List Nat}
    (hc : c.unexploredObjects = a :: rest) (hnone : scanOf c.map a = none) :
    Searching blocks map roots stop { c with unexploredObjects := rest } := by
  have hprog := h.progress
  rw [hc] at hprog
  refine ⟨h.same, h.heapBegin, h.heapEnd, h.leaks, h.marks, hprog.skip fun p hp => ?_⟩
  by_contra hno
  rw [(h.scanOf_iff hl (by rw [hc]; exact List.mem_cons_self)).mpr ⟨hp, hno⟩] at hnone
  cases hnone

/-- Or it leads to an object of the heap, which is marked and whose words are put on the list. -/
theorem Searching.visit (hl : LaidOut map stop blocks) (h : Searching blocks map roots stop c) {a p : Nat} {rest : List Nat}
    (hc : c.unexploredObjects = a :: rest) (hp : scanOf c.map a = some p) (hreal : (blocks p).isSome) :
    Searching blocks map roots stop (scan { c with unexploredObjects := rest } p) := by
  have hprog := h.progress
  rw [hc] at hprog
  have ht := ((h.scanOf_iff hl (by rw [hc]; exact List.mem_cons_self)).mp hp).1
  obtain ⟨size, hB⟩ := Option.isSome_iff_exists.mp hreal
  have hlow := hl.low hreal
  have hvisit : Worklist.Progress (scanOf map) (entriesOf map stop) (firstEntries map roots stop)
      (fun q => (blocks q).isSome ∧ ObjectHeader.isObjectChecked (ObjectHeader.markObjectChecked c.map.mem p) q = true)
      (rest ++ entriesOf map stop p) := by
    refine hprog.visit ht fun q => ⟨?_, ?_⟩
    · rintro ⟨hq, hset⟩
      have hlow' := hl.low hq
      exact ((ObjectHeader.isObjectChecked_mark (by omega) (by omega)).mp hset).imp_right fun h => ⟨hq, h⟩
    · rintro (rfl | ⟨hq, hset⟩)
      · exact ⟨hreal, ObjectHeader.isObjectChecked_mark_self⟩
      · have hlow' := hl.low hq
        exact ⟨hq, (ObjectHeader.isObjectChecked_mark (by omega) (by omega)).mpr (.inr hset)⟩
  rw [← h.entries_eq hl hB] at hvisit
  refine ⟨?_, h.heapBegin, h.heapEnd, h.leaks, hl.mark h.marks hreal, hvisit⟩
  dsimp only [scan]
  rw [h.same]

/-- What a round searches the search comes to. -/
theorem Searching.found (hl : LaidOut map stop blocks) (h : Searching blocks map roots stop c) {a p : Nat} (ha : a ∈ c.unexploredObjects)
    (hp : scanOf c.map a = some p) : Found map roots stop p :=
  (h.listed ha).reached ((h.scanOf_iff hl ha).mp hp).1

section
variable (hl : LaidOut map stop blocks) (hreal : ∀ p, Found map roots stop p → (blocks p).isSome)
include hl hreal

/-- Where the search comes to objects of the heap only, all its rounds are of this kind. -/
theorem kept_searching : Kept (Searching blocks map roots stop) := by
  refine ⟨fun h hc hnone => h.skip hl hc hnone, fun h hc hp _ => h.visit hl hc hp (hreal _ (h.found hl ?_ hp))⟩
  rw [hc]
  exact List.mem_cons_self

/-- It comes to its end then, as no assertion fails. -/
theorem Searching.traverse (h : Searching blocks map roots stop c) :
    ∃ rounds c', (∀ fuel ≥ rounds, traverseUnexploredList fuel c = .ok c') ∧ Searching blocks map roots stop c' ∧
      c'.unexploredObjects = [] := by
  obtain ⟨rounds, hsame, hend⟩ := ends_of_bounded stop c (fun a ha => (entry_range (h.listed ha)).2) h.heapEnd.le
  rcases hend with ⟨c', hok, -, -⟩ | ⟨-, p, hp, hal⟩
  · exact ⟨rounds, c', fun fuel hfuel => (hsame fuel hfuel).1.trans hok, (kept_searching hl hreal).traverse h hok⟩
  · obtain ⟨c', addr, rest, h', hc, hscan⟩ := (kept_searching hl hreal).scans h hp
    exact absurd (hl.aligned (hreal p (h'.found hl (by rw [hc]; exact List.mem_cons_self) hscan))) hal

end

/-! ### The walk -/

/-- An object that the walk reports: it has not been freed and is not marked. -/
def Unreported (blocks : Nat → Option Nat) (m : Mem) (p : Nat) : Prop :=
  (blocks p).isSome ∧ ObjectHeader.getObjectSize m p ≠ 0 ∧ ObjectHeader.isObjectChecked m p = false

/-- The walk comes from block to block: whatever begins below `ptr` also ends below it. -/
structure Walking (blocks : Nat → Option Nat) (map : SentinelMap) (stop : Nat) (c : LeakCheck) (ptr : Nat) : Prop where
  same : c.map = { map with mem := c.map.mem }
  heapEnd : c.heapEnd = stop
  headers : Headers blocks map.mem c.map.mem
  aligned : ptr % 8 = 0
  low : USER_HEAP_BASE ≤ ptr
  past : ∀ p size, blocks p = some size → p - 8 < ptr → p + size + 24 ≤ ptr

theorem walking_start (hl : LaidOut map stop blocks) (hsame : c.map = { map with mem := c.map.mem }) (hend : c.heapEnd = stop)
    (hh : Headers blocks map.mem c.map.mem) : Walking blocks map stop c (USER_HEAP_BASE + 16) := by
  refine ⟨hsame, hend, hh, rfl, by omega, fun p size hB hlt => ?_⟩
  have hlow := (hl.placed hB).low
  omega

variable {ptr : Nat}

/-- The walk stops at the first sentinel of a block and nowhere else. -/
theorem Walking.sentinel_iff (hl : LaidOut map stop blocks) (h : Walking blocks map stop c ptr) :
    (c.map.word ptr = SENTINEL_WORD ∧ c.map.isSet ptr = true) ↔ (blocks (ptr + 8)).isSome := by
  have hset : c.map.isSet ptr = map.isSet ptr := by
    rw [h.same]
    rfl
  rw [hset]
  constructor
  · rintro ⟨-, hmark⟩
    obtain ⟨p, size, hB, h₁, h₂⟩ := hl.covered ⟨h.low, h.aligned⟩ hmark
    have hlow := (hl.placed hB).low
    have hal := (hl.placed hB).aligned
    have halp := h.aligned
    have heq : ptr + 8 = p := by
      by_contra hne
      have := h.past p size hB (by omega)
      omega
    rw [heq, hB]
    rfl
  · intro hp
    obtain ⟨size, hB⟩ := Option.isSome_iff_exists.mp hp
    have hfirst := hl.first hB
    have hmark := hl.marked hB
    rw [Nat.add_sub_cancel] at hfirst hmark
    refine ⟨?_, hmark⟩
    rw [← hfirst]
    exact (Mem.read_congr ((h.headers.rest _ hp).mono (by omega) (by omega))).symm

/-- The objects that the walk has before it and will report. -/
def Ahead (blocks : Nat → Option Nat) (m : Mem) (ptr p : Nat) : Prop := ptr ≤ p - 8 ∧ Unreported blocks m p

/-- The headers that the walk has behind it have no marks. -/
def Cleaned (blocks : Nat → Option Nat) (m : Mem) (ptr : Nat) : Prop :=
  ∀ p, (blocks p).isSome → p - 8 < ptr → ObjectHeader.isObjectChecked m p = false

theorem Walking.skip (hl : LaidOut map stop blocks) (h : Walking blocks map stop c ptr) (hno : ¬ (blocks (ptr + 8)).isSome) :
    Walking blocks map stop c (ptr + 8) ∧ (∀ p, Ahead blocks c.map.mem ptr p ↔ Ahead blocks c.map.mem (ptr + 8) p) ∧
      (Cleaned blocks c.map.mem ptr → Cleaned blocks c.map.mem (ptr + 8)) := by
  have hal := h.aligned
  have hlow := h.low
  have hnext : ∀ p, (blocks p).isSome → (ptr ≤ p - 8 ↔ ptr + 8 ≤ p - 8) := by
    intro p hp
    have halp := hl.aligned hp
    have hlowp := hl.low hp
    have hne : p ≠ ptr + 8 := fun heq => hno (heq ▸ hp)
    simp only [WORD_SIZE] at halp
    omega
  refine ⟨⟨h.same, h.heapEnd, h.headers, by omega, by omega, fun p size hB hlt => ?_⟩, fun p => ?_, fun hcl p hp hlt => ?_⟩
  · have := hnext p (by rw [hB]; rfl)
    have := h.past p size hB (by omega)
    omega
  · exact and_congr_left fun hun => hnext p hun.1
  · have := hnext p hp
    exact hcl p hp (by omega)

/-- What the walk leaves of a header. -/
theorem checkLeakageAndClean_spec (hl : LaidOut map stop blocks) (hh : Headers blocks map.mem m) {p size : Nat} (hB : blocks p = some size) :
    ((ObjectHeader.checkLeakageAndClean m p).1 = true ↔ Unreported blocks m p) ∧
      Headers blocks map.mem (ObjectHeader.checkLeakageAndClean m p).2 ∧
      ObjectHeader.isObjectChecked (ObjectHeader.checkLeakageAndClean m p).2 p = false ∧
      ObjectHeader.getNextObject (ObjectHeader.checkLeakageAndClean m p).2 p = p + size + 24 ∧
      ∀ a, a ≠ p - 16 → (ObjectHeader.checkLeakageAndClean m p).2 a = m a := by
  have hp : (blocks p).isSome := by
    rw [hB]
    rfl
  have hlow := hl.low hp
  have hsize := hl.getSize_eq hh hB
  have hlt : ObjectHeader.getSize m p < 2 ^ 32 := Mem.read_lt ..
  by_cases hdone : (ObjectHeader.isObjectFree m p || ObjectHeader.isObjectChecked m p) = true
  · have hres : ObjectHeader.checkLeakageAndClean m p = (false, ObjectHeader.cleanObjectChecked m p) := if_pos hdone
    obtain ⟨v, hv, hclean⟩ := @ObjectHeader.cleanObjectChecked_eq m p
    rw [hres]
    dsimp only
    refine ⟨?_, ?_, ?_, ?_, fun a ha => ?_⟩
    · refine ⟨fun h => absurd h Bool.false_ne_true, fun ⟨_, hobj, hmark⟩ => ?_⟩
      rw [hmark, Bool.or_false, ObjectHeader.isObjectFree, beq_iff_eq] at hdone
      exact absurd hdone hobj
    · rw [hclean]
      exact hl.headers_set hh hp (by omega)
    · rw [hclean, ObjectHeader.isObjectChecked_eq_false_iff, Mem.set_self]
      omega
    · simp only [ObjectHeader.getNextObject, SENTINEL_SIZE, WORD_SIZE]
      rw [ObjectHeader.cleanObjectChecked, ObjectHeader.and_mask hlt, ObjectHeader.setSize, ObjectHeader.getSize,
        Mem.read_write_of_lt _ _ (by omega), hsize]
      omega
    · rw [hclean, Mem.set_of_ne ha]
  · have hres : ObjectHeader.checkLeakageAndClean m p = (true, m) := if_neg hdone
    rw [Bool.not_eq_true, Bool.or_eq_false_iff, ObjectHeader.isObjectFree, beq_eq_false_iff_ne] at hdone
    rw [hres]
    refine ⟨⟨fun _ => ⟨hp, hdone⟩, fun _ => rfl⟩, hh, hdone.2, ?_, fun _ _ => rfl⟩
    have hmark := hdone.2
    rw [ObjectHeader.isObjectChecked, bne_eq_false_iff_eq, Nat.and_one_is_mod] at hmark
    simp only [ObjectHeader.getNextObject, SENTINEL_SIZE, WORD_SIZE]
    omega

/-- The walk over one block. -/
theorem Walking.visit (hl : LaidOut map stop blocks) (h : Walking blocks map stop c ptr) {size : Nat} (hB : blocks (ptr + 8) = some size)
    {c' : LeakCheck} (hc : c'.map = { c.map with mem := (ObjectHeader.checkLeakageAndClean c.map.mem (ptr + 8)).2 })
    (hend : c'.heapEnd = c.heapEnd) :
    Walking blocks map stop c' (ptr + 8 + size + 24) ∧ (∀ p, Ahead blocks c.map.mem ptr p ↔
      p = ptr + 8 ∧ Unreported blocks c.map.mem (ptr + 8) ∨ Ahead blocks c'.map.mem (ptr + 8 + size + 24) p) ∧
      (Cleaned blocks c.map.mem ptr → Cleaned blocks c'.map.mem (ptr + 8 + size + 24)) := by
  obtain ⟨-, hheaders, hclean, -, hsame⟩ := checkLeakageAndClean_spec hl h.headers hB
  have hal := h.aligned
  have hlow := h.low
  have h16 := (hl.placed hB).size.bounds.2.1
  have hmem : c'.map.mem = (ObjectHeader.checkLeakageAndClean c.map.mem (ptr + 8)).2 := by rw [hc]
  rw [← hmem] at hheaders hclean hsame
  have hothers : ∀ q, (blocks q).isSome → q ≠ ptr + 8 →
      ObjectHeader.isObjectChecked c'.map.mem q = ObjectHeader.isObjectChecked c.map.mem q := by
    intro q hq hne
    have hlowq := hl.low hq
    rw [Bool.eq_iff_iff, ObjectHeader.isObjectChecked_iff, ObjectHeader.isObjectChecked_iff, hsame _ (by omega)]
  have hapart : ∀ p size', blocks p = some size' → p ≠ ptr + 8 → ptr + 8 + size + 32 ≤ p ∨ p + size' + 32 ≤ ptr + 8 :=
    fun p size' hp hne => (hl.apart hp hB hne).symm
  refine ⟨⟨?_, hend.trans h.heapEnd, hheaders, by omega, by omega, fun p size' hp hlt => ?_⟩, fun p => ⟨fun ⟨hle, hun⟩ => ?_, ?_⟩,
    fun hcl p hp hlt => ?_⟩
  · rw [hmem, hc, h.same]
  · by_cases hne : p = ptr + 8
    · subst hne
      rw [hB, Option.some.injEq] at hp
      omega
    · have hlowp := (hl.placed hp).low
      rcases hapart p size' hp hne with hafter | hbefore
      · omega
      · omega
  · by_cases hne : p = ptr + 8
    · exact .inl ⟨hne, hne ▸ hun⟩
    · obtain ⟨hp, hobj, hmark⟩ := hun
      obtain ⟨size', hC⟩ := Option.isSome_iff_exists.mp hp
      refine .inr ⟨?_, hp, ?_, ?_⟩
      · rcases hapart p size' hC hne with hafter | hbefore <;> omega
      · rw [hl.getObjectSize_eq hheaders hp]
        rwa [hl.getObjectSize_eq h.headers hp] at hobj
      · rw [hothers p hp hne]
        exact hmark
  · rintro (⟨rfl, hun⟩ | ⟨hle, hp, hobj, hmark⟩)
    · exact ⟨by omega, hun⟩
    · have hne : p ≠ ptr + 8 := by omega
      refine ⟨by omega, hp, ?_, ?_⟩
      · rw [hl.getObjectSize_eq h.headers hp]
        rwa [hl.getObjectSize_eq hheaders hp] at hobj
      · rw [hothers p hp hne] at hmark
        exact hmark
  · by_cases hne : p = ptr + 8
    · exact hne ▸ hclean
    · obtain ⟨size', hC⟩ := Option.isSome_iff_exists.mp hp
      have hlowp := hl.low hp
      rw [hothers p hp hne]
      refine hcl p hp ?_
      rcases hapart p size' hC hne with hafter | hbefore <;> omega

theorem ahead_nil (hl : LaidOut map stop blocks) (hstop : stop ≤ ptr) (p : Nat) : ¬ Ahead blocks m ptr p := by
  rintro ⟨hle, hp, -⟩
  obtain ⟨size, hB⟩ := Option.isSome_iff_exists.mp hp
  have hhigh := (hl.placed hB).high
  have hlow := (hl.placed hB).low
  omega

/-- One step of the walk, over a word or over a block: it goes on from `ptr'`, and it has told whether the object in between is a
    leak. -/
structure Onward (blocks : Nat → Option Nat) (map : SentinelMap) (stop : Nat) (c : LeakCheck) (ptr : Nat) (c' : LeakCheck) (ptr' : Nat)
    (isLeakage : Bool) : Prop where
  walking : Walking blocks map stop c' ptr'
  further : ptr < ptr'
  ahead : (∃ p, Ahead blocks c.map.mem ptr p) ↔ isLeakage = true ∨ ∃ p, Ahead blocks c'.map.mem ptr' p
  leaks : ∀ x, (x ∈ c.leaks ∨ ∃ p, Ahead blocks c.map.mem ptr p ∧ x = (p, ObjectHeader.getObjectSize map.mem p)) ↔
    x ∈ c'.leaks ∨ ∃ p, Ahead blocks c'.map.mem ptr' p ∧ x = (p, ObjectHeader.getObjectSize map.mem p)
  cleaned : Cleaned blocks c.map.mem ptr → Cleaned blocks c'.map.mem ptr'
  outside : ∀ a, (∀ p, (blocks p).isSome → a ≠ p - 16) → c'.map.mem a = c.map.mem a

theorem Walking.next (hl : LaidOut map stop blocks) (h : Walking blocks map stop c ptr) (hlt : ptr < stop) :
    ∃ c' ptr' isLeakage, Onward blocks map stop c ptr c' ptr' isLeakage ∧
      ∀ fuel hasLeakage, reportFrom (fuel + 1) c ptr hasLeakage = reportFrom fuel c' ptr' (hasLeakage || isLeakage) := by
  have hend := h.heapEnd
  by_cases hp : (blocks (ptr + 8)).isSome
  swap
  · obtain ⟨hnext, hahead, hclean⟩ := h.skip hl hp
    refine ⟨c, ptr + 8, false, ⟨hnext, by omega, ?_, fun x => ?_, hclean, fun _ _ => rfl⟩, fun fuel hasLeakage => ?_⟩
    · simp only [hahead, Bool.false_eq_true, false_or]
    · simp only [hahead]
    · rw [reportFrom, if_pos (by omega), if_neg fun hs => hp ((h.sentinel_iff hl).mp hs), Bool.or_false]
  obtain ⟨size, hB⟩ := Option.isSome_iff_exists.mp hp
  obtain ⟨hleak, hheaders, -, hnext, hsame⟩ := checkLeakageAndClean_spec hl h.headers hB
  obtain ⟨isLeakage, mem, hres⟩ : ∃ b m, ObjectHeader.checkLeakageAndClean c.map.mem (ptr + 8) = (b, m) := ⟨_, _, rfl⟩
  rw [hres] at hleak hheaders hnext hsame
  dsimp only at hleak hheaders hnext hsame
  generalize hc' : (if isLeakage then insertLeakageMap { c with map := { c.map with mem := mem } } (ptr + 8)
    (ObjectHeader.getObjectSize mem (ptr + 8)) else { c with map := { c.map with mem := mem } }) = c'
  have hmap : c'.map = { c.map with mem := (ObjectHeader.checkLeakageAndClean c.map.mem (ptr + 8)).2 } := by
    rw [hres, ← hc']
    split <;> rfl
  have hend' : c'.heapEnd = c.heapEnd := by
    rw [← hc']
    split <;> rfl
  have hleaks : ∀ x, x ∈ c'.leaks ↔ x ∈ c.leaks ∨
      Unreported blocks c.map.mem (ptr + 8) ∧ x = (ptr + 8, ObjectHeader.getObjectSize map.mem (ptr + 8)) := by
    intro x
    rw [← hc', ← hleak, ← hl.getObjectSize_eq hheaders hp]
    cases isLeakage
    · simp
    · simp [insertLeakageMap]
  obtain ⟨hwalk, hahead, hclean⟩ := h.visit hl hB hmap hend'
  refine ⟨c', ptr + 8 + size + 24, isLeakage, ⟨hwalk, by omega, ?_, fun x => ?_, hclean, fun a ha => ?_⟩, fun fuel hasLeakage => ?_⟩
  · simp only [hahead, exists_or, exists_eq_left, hleak]
  · rw [hleaks, or_assoc]
    refine or_congr_right ?_
    simp only [hahead, or_and_right, exists_or, and_assoc, exists_eq_left]
  · rw [hmap, hres]
    exact hsame a (ha (ptr + 8) hp)
  · rw [reportFrom, if_pos (by omega), if_pos ((h.sentinel_iff hl).mpr hp)]
    dsimp only [WORD_SIZE]
    rw [hres]
    dsimp only
    rw [hc', hnext]

/-- The walk reports what it has before it. -/
theorem Walking.report (hl : LaidOut map stop blocks) (h : Walking blocks map stop c ptr) {fuel : Nat} (hfuel : stop - ptr ≤ fuel)
    (hasLeakage : Bool) :
    ((reportFrom fuel c ptr hasLeakage).1 = true ↔ hasLeakage = true ∨ ∃ p, Ahead blocks c.map.mem ptr p) ∧
      ∀ x, x ∈ (reportFrom fuel c ptr hasLeakage).2.leaks ↔ x ∈ c.leaks ∨
        ∃ p, Ahead blocks c.map.mem ptr p ∧ x = (p, ObjectHeader.getObjectSize map.mem p) := by
  have hdone : ∀ {ptr : Nat} {c : LeakCheck} {hasLeakage : Bool}, stop ≤ ptr →
      (hasLeakage = true ↔ hasLeakage = true ∨ ∃ p, Ahead blocks c.map.mem ptr p) ∧
        ∀ x, x ∈ c.leaks ↔ x ∈ c.leaks ∨ ∃ p, Ahead blocks c.map.mem ptr p ∧ x = (p, ObjectHeader.getObjectSize map.mem p) :=
    fun hstop => ⟨⟨.inl, fun h => h.resolve_right fun ⟨p, hp⟩ => ahead_nil hl hstop p hp⟩,
      fun x => ⟨.inl, fun h => h.resolve_right fun ⟨p, hp, _⟩ => ahead_nil hl hstop p hp⟩⟩
  induction fuel generalizing c ptr hasLeakage with
  | zero => exact hdone (by omega)
  | succ fuel ih =>
    by_cases hlt : ptr < stop
    swap
    · rw [reportFrom, if_neg (by have := h.heapEnd; omega)]
      exact hdone (by omega)
    obtain ⟨c', ptr', isLeakage, hon, hstep⟩ := h.next hl hlt
    have hfurther := hon.further
    obtain ⟨hret, hall⟩ := ih hon.walking (by omega) (hasLeakage || isLeakage)
    rw [hstep]
    refine ⟨?_, fun x => ?_⟩
    · rw [hret, Bool.or_eq_true, or_assoc, hon.ahead]
    · rw [hall, hon.leaks]

/-- It leaves no marks in headers, and everything else as it is. -/
theorem Walking.restore (hl : LaidOut map stop blocks) (h : Walking blocks map stop c ptr) (hclean : Cleaned blocks c.map.mem ptr)
    {fuel : Nat} (hfuel : stop - ptr ≤ fuel) (hasLeakage : Bool) :
    Headers blocks map.mem (reportFrom fuel c ptr hasLeakage).2.map.mem ∧
      (∀ p, (blocks p).isSome → ObjectHeader.isObjectChecked (reportFrom fuel c ptr hasLeakage).2.map.mem p = false) ∧
      ∀ a, (∀ p, (blocks p).isSome → a ≠ p - 16) → (reportFrom fuel c ptr hasLeakage).2.map.mem a = c.map.mem a := by
  have hdone : ∀ {ptr : Nat} {c : LeakCheck}, Walking blocks map stop c ptr → Cleaned blocks c.map.mem ptr → stop ≤ ptr →
      Headers blocks map.mem c.map.mem ∧ (∀ p, (blocks p).isSome → ObjectHeader.isObjectChecked c.map.mem p = false) ∧
        ∀ a, (∀ p, (blocks p).isSome → a ≠ p - 16) → c.map.mem a = c.map.mem a := by
    intro ptr c h hclean hstop
    refine ⟨h.headers, fun p hp => hclean p hp ?_, fun _ _ => rfl⟩
    obtain ⟨size, hB⟩ := Option.isSome_iff_exists.mp hp
    have hhigh := (hl.placed hB).high
    have hlow := hl.low hp
    omega
  induction fuel generalizing c ptr hasLeakage with
  | zero => exact hdone h hclean (by omega)
  | succ fuel ih =>
    by_cases hlt : ptr < stop
    swap
    · rw [reportFrom, if_neg (by have := h.heapEnd; omega)]
      exact hdone h hclean (by omega)
    obtain ⟨c', ptr', isLeakage, hon, hstep⟩ := h.next hl hlt
    have hfurther := hon.further
    obtain ⟨hheaders, hmarks, houtside⟩ := ih hon.walking (hon.cleaned hclean) (by omega) (hasLeakage || isLeakage)
    rw [hstep]
    exact ⟨hheaders, hmarks, fun a ha => (houtside a ha).trans (hon.outside a ha)⟩

/-! ### The check -/

/-- An object that has not been freed and that the search does not come to. -/
def Missed (blocks : Nat → Option Nat) (map : SentinelMap) (roots : Roots) (stop p : Nat) : Prop :=
  (blocks p).isSome ∧ ObjectHeader.getObjectSize map.mem p ≠ 0 ∧ ¬ Found map roots stop p

theorem searching_start (hl : LaidOut map stop blocks) :
    Searching blocks map roots stop ⟨map, firstEntries map roots stop, USER_HEAP_BASE + 16, stop, []⟩ := by
  refine ⟨rfl, rfl, rfl, rfl, .refl _, .start fun p ⟨hp, hmark⟩ => ?_⟩
  have hlow := hl.low hp
  have hbyte := (hl.header_byte (hl.headers (.refl _)) hp).1
  rw [ObjectHeader.isObjectChecked_iff] at hmark
  dsimp only at hmark
  omega

/-- The search of the roots comes first. -/
theorem doSlowLeakCheck_eq (fuel : Nat) : doSlowLeakCheck fuel map roots USER_HEAP_BASE stop =
    (traverseUnexploredList fuel ⟨map, firstEntries map roots stop, USER_HEAP_BASE + 16, stop, []⟩ >>=
      fun c => .ok c.reportUnreachableNonfreedObjects) := by
  unfold doSlowLeakCheck
  dsimp only
  rw [searchHeapPointersInsideRegisters, foldl_checkInsert, Except.bind_of_ok (searchHeapPointers_eq _ roots.stack.aligned),
    Except.bind_of_ok (searchHeapPointersInsideGlobals_eq _ _)]
  congr 2
  simp only [firstEntries, rootWords, List.filter_append, List.nil_append]
  rfl

/-- When the search is done the marks are those of the objects that it has come to. -/
theorem Searching.missed_iff (hl : LaidOut map stop blocks) (h : Searching blocks map roots stop c) (hc : c.unexploredObjects = []) (p : Nat) :
    Ahead blocks c.map.mem (USER_HEAP_BASE + 16) p ↔ Missed blocks map roots stop p := by
  have hprog := h.progress
  rw [hc] at hprog
  have hdone := hprog.done p
  constructor
  · rintro ⟨-, hp, hobj, hmark⟩
    rw [hl.getObjectSize_eq (hl.headers h.marks) hp] at hobj
    refine ⟨hp, hobj, fun hfound => ?_⟩
    rw [(hdone.mpr hfound).2] at hmark
    cases hmark
  · rintro ⟨hp, hobj, hmissed⟩
    have hlow := hl.low hp
    refine ⟨by omega, hp, ?_, Bool.eq_false_of_not_eq_true fun hmark => hmissed (hdone.mp ⟨hp, hmark⟩)⟩
    rw [hl.getObjectSize_eq (hl.headers h.marks) hp]
    exact hobj

/-- The check reports the objects that its search does not come to. -/
theorem doSlowLeakCheck_spec (hl : LaidOut map stop blocks) (hu : Unmistaken blocks map roots stop) :
    ∃ rounds, ∀ fuel ≥ rounds, ∃ hasLeakage c, doSlowLeakCheck fuel map roots USER_HEAP_BASE stop = .ok (hasLeakage, c) ∧
      (hasLeakage = true ↔ ∃ p, Missed blocks map roots stop p) ∧
      ∀ p size, (p, size) ∈ c.leaks ↔ Missed blocks map roots stop p ∧ size = ObjectHeader.getObjectSize map.mem p := by
  have hstart : Searching blocks map roots stop ⟨map, firstEntries map roots stop, USER_HEAP_BASE + 16, stop, []⟩ := searching_start hl
  obtain ⟨rounds, c, hrun, h, hempty⟩ := hstart.traverse hl fun p hp => (found_spec hl hu hp).1
  have hwalk := walking_start hl h.same h.heapEnd (hl.headers h.marks)
  have hreport : c.reportUnreachableNonfreedObjects = reportFrom (stop - (USER_HEAP_BASE + 16)) c (USER_HEAP_BASE + 16) false := by
    rw [reportUnreachableNonfreedObjects, h.heapBegin, h.heapEnd]
  obtain ⟨hret, hleaks⟩ := hwalk.report hl (Nat.le_refl (stop - (USER_HEAP_BASE + 16))) false
  rw [← hreport] at hret hleaks
  simp only [h.missed_iff hl hempty, Bool.false_eq_true, false_or, h.leaks, List.not_mem_nil] at hret hleaks
  refine ⟨rounds, fun fuel hfuel => ⟨_, c.reportUnreachableNonfreedObjects.2, ?_, hret, fun p size => ?_⟩⟩
  · rw [doSlowLeakCheck_eq, Except.bind_of_ok (hrun fuel hfuel)]
  · rw [hleaks]
    constructor
    · rintro ⟨q, hq, heq⟩
      obtain ⟨rfl, rfl⟩ := Prod.mk.inj heq
      exact ⟨hq, rfl⟩
    · rintro ⟨hp, rfl⟩
      exact ⟨p, hp, rfl⟩

/-- When all reachable objects have sizes that pass the test, the search comes to all of them. -/
theorem found_of_reaches (hl : LaidOut map stop blocks) (hu : Unmistaken blocks map roots stop)
    (hpow : ∀ p, Reaches blocks map.mem roots p → (ObjectHeader.getObjectSize map.mem p).isPowerOfTwo) {p : Nat}
    (h : Reaches blocks map.mem roots p) : Found map roots stop p := by
  have hrange : ∀ {p a}, (blocks p).isSome → Covers map.mem p a → USER_HEAP_BASE + 16 < a ∧ a < stop := by
    intro p a hp hcov
    obtain ⟨size, hB⟩ := Option.isSome_iff_exists.mp hp
    have hlow := (hl.placed hB).low
    have hhigh := (hl.placed hB).high
    have hle := hl.object hB
    have h₁ := hcov.1
    have h₂ := hcov.2
    omega
  induction h with
  | root ha hp hcov =>
    obtain ⟨h₁, h₂⟩ := hrange hp hcov
    have ht := (scanOf_iff hl hu (.inl ha) h₁ h₂).mpr ⟨hp, hcov, hpow _ (.root ha hp hcov)⟩
    exact .root (mem_firstEntries.mpr ⟨ha, h₁, h₂⟩) ht
  | inside hq hword hp hcov ih =>
    obtain ⟨h₁, h₂⟩ := hrange hp hcov
    obtain ⟨hsome, -, -⟩ := found_spec hl hu ih
    have ht := (scanOf_iff hl hu (.inr ⟨_, hq, hword⟩) h₁ h₂).mpr ⟨hp, hcov, hpow _ (.inside hq hword hp hcov)⟩
    exact .next ih ((mem_entriesOf (hl.aligned hsome)).mpr ⟨hword, h₁, h₂⟩) ht

/-- A reachable object whose size is no power of two is reported. -/
theorem not_checksLeaks (hl : LaidOut map stop blocks) (hu : Unmistaken blocks map roots stop) {p : Nat}
    (hreach : Reaches blocks map.mem roots p) (hpow : ¬ (ObjectHeader.getObjectSize map.mem p).isPowerOfTwo) :
    ¬ ChecksLeaks blocks map roots stop := by
  rintro ⟨rounds', hcheck⟩
  obtain ⟨rounds, hspec⟩ := doSlowLeakCheck_spec hl hu
  obtain ⟨_, c, hrun, -, hleaks⟩ := hspec (max rounds rounds') (Nat.le_max_left ..)
  obtain ⟨_, c', hrun', -, hleaks'⟩ := hcheck (max rounds rounds') (Nat.le_max_right ..)
  rw [hrun, Except.ok.injEq, Prod.mk.injEq] at hrun'
  obtain ⟨-, rfl⟩ := hrun'
  have hmissed : Missed blocks map roots stop p :=
    ⟨hreach.object.1, hreach.object.2, fun hfound => hpow (found_spec hl hu hfound).2.2⟩
  exact ((hleaks' p _).mp ((hleaks p _).mpr ⟨hmissed, rfl⟩)).1.2.2 hreach

/-- Where no address is mistaken, the check computes reachability if and only if every reachable object has a power of two as
    its size. -/
theorem leaks_checked_iff (hl : LaidOut map stop blocks) (hu : Unmistaken blocks map roots stop) :
    ChecksLeaks blocks map roots stop ↔
      ∀ p, Reaches blocks map.mem roots p → (ObjectHeader.getObjectSize map.mem p).isPowerOfTwo := by
  refine ⟨fun hcheck p hreach => ?_, fun hpow => ?_⟩
  · by_contra hpow
    exact not_checksLeaks hl hu hreach hpow hcheck
  · have hiff : ∀ p, Missed blocks map roots stop p ↔ Leaked blocks map.mem roots p := fun p =>
      and_congr_right fun _ => and_congr_right fun _ => not_congr ⟨fun h => (found_spec hl hu h).2.1, found_of_reaches hl hu hpow⟩
    obtain ⟨rounds, hspec⟩ := doSlowLeakCheck_spec hl hu
    simp only [hiff] at hspec
    exact ⟨rounds, hspec⟩

/-- A register holds the pointer, and nothing else is searched. -/
def held (p : Nat) : Roots := ⟨[p], ⟨0, 0, rfl⟩, []⟩

theorem held_holds {p a : Nat} : (held p).Holds m a ↔ a = p := by
  simp [Roots.Holds, held, WordIn]

/-- The blocks of a heap with one object. -/
def single (p size : Nat) : Nat → Option Nat := fun q => (Function.update (fun _ => none) p (some (Block.mk size .live)) q).map (·.size)

theorem single_isSome {p size q : Nat} (h : (single p size q).isSome) : q = p := by
  by_contra hne
  rw [single, Function.update_of_ne hne] at h
  cases h

/-- The only object of the heap holds no pointers, and a register points to it. -/
theorem single_spec {r : Runtime} {p size : Nat} (h : MemoryInv false r [p] (Function.update (fun _ => none) p (some ⟨size, .live⟩)))
    (hzero : ∀ a ∈ wordsIn r.memory.heap.map.mem p (p + ObjectHeader.getObjectSize r.memory.heap.map.mem p), a = 0) :
    LaidOut r.memory.heap.map r.memory.heap.xheap.position (single p size) ∧
      Unmistaken (single p size) r.memory.heap.map (held p) r.memory.heap.xheap.position ∧
      Reaches (single p size) r.memory.heap.map.mem (held p) p := by
  have hBp : Function.update (fun _ => none) p (some (Block.mk size .live)) p = some ⟨size, .live⟩ := Function.update_self ..
  have hp : (single p size p).isSome := by
    rw [single, hBp]
    rfl
  obtain ⟨hpos, hle, -, -⟩ := (h.heap.block hBp).live rfl
  have hlow := (h.heap.placed hBp).low
  have hal := (h.heap.placed hBp).aligned
  have hlaid : LaidOut r.memory.heap.map r.memory.heap.xheap.position (single p size) := by
    refine h.heap.laidOut fun q b hq => ?_
    have hqp : q = p := single_isSome (by rw [single, hq]; rfl)
    subst hqp
    rw [hBp, Option.some.injEq] at hq
    rw [← hq]
    exact hle
  have hreach : Reaches (single p size) r.memory.heap.map.mem (held p) p :=
    .root (.inl List.mem_cons_self) hp ⟨le_rfl, by omega⟩
  have hfollowed : ∀ {a}, Followed (single p size) r.memory.heap.map.mem (held p) a → a = p ∨ a = 0 := by
    intro a ha
    rcases ha with ha | ⟨q, hq, ha⟩
    · exact .inl (held_holds.mp ha)
    · obtain rfl := single_isSome hq.object.1
      exact .inr (hzero a ((mem_wordsIn (by simp only [WORD_SIZE]; omega)).mpr ha))
  refine ⟨hlaid, ⟨fun {a q} ha h₁ h₂ hobj => ?_, fun {a q} ha hq hcov _ => ?_⟩, hreach⟩
  · rcases hfollowed ha with rfl | rfl
    · have hgood : ObjectHeader.isGoodObject r.memory.heap.map.mem a = true := beq_iff_eq.mpr (h.heap.block hBp).first
      unfold objectOf at hobj
      rw [if_neg (not_not.mpr hgood)] at hobj
      split at hobj
      · cases hobj
        exact hp
      · cases hobj
    · omega
  · obtain rfl := single_isSome hq
    have hge := hcov.1
    exact (hfollowed ha).resolve_right (by omega)

/-- The first call of `malloc`, whose object stays empty. -/
theorem single_malloc {sz n : Nat} (hsz : WithinLimit sz) (hrun : (State.start.rt.malloc 0 sz).toOption.map (fun x =>
      wordsIn x.2.memory.heap.map.mem x.1 (x.1 + ObjectHeader.getObjectSize x.2.memory.heap.map.mem x.1)) = some (List.replicate n 0)) :
    ∃ p r size, State.start.rt.malloc 0 sz = .ok (p, r) ∧ ObjectHeader.getObjectSize r.memory.heap.map.mem p = objectSize sz ∧
      LaidOut r.memory.heap.map r.memory.heap.xheap.position (single p size) ∧
      Unmistaken (single p size) r.memory.heap.map (held p) r.memory.heap.xheap.position ∧
      Reaches (single p size) r.memory.heap.map.mem (held p) p ∧
      ∀ a ∈ wordsIn r.memory.heap.map.mem p (p + ObjectHeader.getObjectSize r.memory.heap.map.mem p), a = 0 := by
  have hstart : MemoryInv false State.start.rt [] fun _ => none := State.initial_memoryInv State.start_initial
  obtain ⟨⟨p, r⟩, hopt, hwords⟩ := Option.map_eq_some_iff.mp hrun
  have hmal := Except.of_toOption hopt
  rcases Runtime.malloc_spec hstart 0 hsz nofun with herr | ⟨r', p', size, hok, h', -, hobj, -⟩
  · exact absurd (hmal ▸ herr) not_spent_ok
  · rw [hmal, Except.ok.injEq, Prod.mk.injEq] at hok
    obtain ⟨rfl, rfl⟩ := hok
    have hzero : ∀ a ∈ wordsIn r.memory.heap.map.mem p (p + ObjectHeader.getObjectSize r.memory.heap.map.mem p), a = 0 := by
      intro a ha
      rw [hwords] at ha
      exact List.eq_of_mem_replicate ha
    obtain ⟨hl, hu, hreach⟩ := single_spec h' hzero
    exact ⟨p, r, size, hmal, hobj, hl, hu, hreach, hzero⟩

theorem leaks_checked_iff_sixteen : ∃ p r size, State.start.rt.malloc 0 16 = .ok (p, r) ∧
    ChecksLeaks (single p size) r.memory.heap.map (held p) r.memory.heap.xheap.position := by
  obtain ⟨p, r, size, hmal, hobj, hl, hu, -⟩ := @single_malloc 16 2 (by unfold WithinLimit; omega) (by decide +kernel)
  refine ⟨p, r, size, hmal, (leaks_checked_iff hl hu).mpr fun q hq => ?_⟩
  obtain rfl := single_isSome hq.object.1
  rw [hobj]
  exact ⟨4, rfl⟩

/-- An object of 24 bytes that a register points to is reported as a leak. -/
theorem reachable_object_reported : ¬ ∀ blocks map roots stop, LaidOut map stop blocks → ChecksLeaks blocks map roots stop := by
  intro h
  obtain ⟨p, r, size, -, hobj, hl, hu, hreach, -⟩ := @single_malloc 24 3 (by unfold WithinLimit; omega) (by decide +kernel)
  refine not_checksLeaks hl hu hreach ?_ (h _ _ _ _ hl)
  rw [hobj]
  decide

end

end LeakCheck

end DoubleTake
