import DoubleTake.XMemory
import DoubleTake.Theorems.SentinelMap

/-! The guard that `setSentinels` puts behind an object, and the canary words of freed objects. -/

namespace DoubleTake
namespace XMemory

open SentinelMap

variable {map : SentinelMap} {ptr bs sz x : Nat}

theorem sentinel_word_lt : SENTINEL_WORD < 256 ^ 8 := by decide

/-! ### Setting the guard -/

theorem fillMagicBytes_of_lt {m : Mem} {p n a : Nat} (h : a < p) : fillMagicBytes m p n a = m a := by
  simp only [fillMagicBytes]
  rw [if_neg (by omega), if_neg (by omega)]

theorem fillMagicBytes_of_ge {m : Mem} {p n a : Nat} (h : p + n ≤ a) : fillMagicBytes m p n a = m a := by
  simp only [fillMagicBytes]
  rw [if_neg (by omega), if_neg (by omega)]

theorem fillMagicBytes_magic {m : Mem} {p n : Nat} (hn : 1 ≤ n) (h8 : n ≤ 8) : MagicBytes (fillMagicBytes m p n) p n := by
  refine ⟨fun h1 => ?_, fun i hi h1 => ?_⟩
  · simp only [fillMagicBytes]
    rw [if_pos ⟨by omega, trivial⟩]
    simp
    omega
  · simp only [fillMagicBytes]
    rw [if_neg (by omega), if_pos (by omega)]

@[simp] theorem setSentinels_wp : (setSentinels map ptr bs sz).wp = map.wp := by
  unfold setSentinels
  dsimp only
  split
  · rfl
  · split <;> rfl

/-- The two shapes of `setSentinels`. -/
theorem setSentinels_aligned (h : sz % 8 = 0) : setSentinels map ptr bs sz = map.setSentinelAt (ptr + sz) := by
  simp only [setSentinels, WORD_SIZE, h, if_true]

theorem setSentinels_nonAligned (hsz : sz ≤ bs) (hbs : bs < 2 ^ 64) (h : sz % 8 ≠ 0) :
    setSentinels map ptr bs sz =
      let map := { map with mem := fillMagicBytes map.mem (ptr + sz) (8 - sz % 8) }.tryToSet (guardStart ptr sz)
      if bs - sz > 8 then map.setSentinelAt (guardStart ptr sz + 8) else map := by
  simp only [setSentinels, WORD_SIZE, h, if_false, markSentinelAt, guardStart]
  rw [show (2 ^ 64 + bs - sz) % 2 ^ 64 = bs - sz by omega]

section
variable (hsz : sz ≤ bs) (hbs : bs < 2 ^ 64) (hp : ptr % 8 = 0) (h8 : bs % 8 = 0)
include hsz hbs hp

/-- Nothing is written below the end of the object. -/
theorem setSentinels_below {a : Nat} (h : a < ptr + sz) : (setSentinels map ptr bs sz).mem a = map.mem a := by
  by_cases hs : sz % 8 = 0
  · rw [setSentinels_aligned hs]
    exact Mem.write_of_lt h
  · rw [setSentinels_nonAligned hsz hbs hs]
    dsimp only
    have hfill : fillMagicBytes map.mem (ptr + sz) (8 - sz % 8) a = map.mem a := fillMagicBytes_of_lt h
    split
    · rw [← hfill]
      exact Mem.write_of_lt (by simp only [guardStart]; omega)
    · exact hfill

theorem setSentinels_intact : GuardIntact (setSentinels map ptr bs sz).mem ptr bs sz := by
  by_cases hs : sz % 8 = 0
  · rw [setSentinels_aligned hs, GuardIntact, if_pos hs]
    exact Mem.read_write_of_lt _ _ sentinel_word_lt
  · rw [setSentinels_nonAligned hsz hbs hs, GuardIntact, if_neg hs]
    dsimp only
    have hmagic : MagicBytes (fillMagicBytes map.mem (ptr + sz) (8 - sz % 8)) (ptr + sz) (8 - sz % 8) :=
      fillMagicBytes_magic (by omega) (by omega)
    split
    · refine ⟨hmagic.congr (by omega) ?_, fun _ => Mem.read_write_of_lt _ _ sentinel_word_lt⟩
      exact (Mem.agree_write_left (by simp only [guardStart]; omega)).symm
    · next hgt => exact ⟨hmagic, fun h => absurd h hgt⟩

include h8

/-- Above the block only the word after an object that fills it is written. -/
theorem setSentinels_above {a : Nat} (h : ptr + bs ≤ a) (hsb : sz < bs ∨ ptr + bs + 8 ≤ a) :
    (setSentinels map ptr bs sz).mem a = map.mem a := by
  by_cases hs : sz % 8 = 0
  · rw [setSentinels_aligned hs]
    exact Mem.write_of_ge (by simp only [WORD_SIZE]; omega)
  · rw [setSentinels_nonAligned hsz hbs hs]
    dsimp only
    have hfill : fillMagicBytes map.mem (ptr + sz) (8 - sz % 8) a = map.mem a :=
      fillMagicBytes_of_ge (by omega)
    split
    · rw [← hfill]
      exact Mem.write_of_ge (by simp only [guardStart, WORD_SIZE]; omega)
    · exact hfill

theorem setSentinels_last (h : map.mem.read (ptr + bs) 8 = SENTINEL_WORD) :
    (setSentinels map ptr bs sz).mem.read (ptr + bs) 8 = SENTINEL_WORD := by
  by_cases hsb : sz < bs
  · rw [← h]
    exact Mem.read_congr fun a h₁ _ => setSentinels_above hsz hbs hp h8 h₁ (.inl hsb)
  · have hin := @setSentinels_intact map ptr bs sz hsz hbs hp
    rw [GuardIntact, if_pos (by omega), show ptr + sz = ptr + bs by omega] at hin
    exact hin

theorem setSentinels_isSet (hb : USER_HEAP_BASE ≤ ptr) (hx : HeapWord x) :
    (setSentinels map ptr bs sz).isSet x = true ↔ GuardWord ptr bs sz x ∨ map.isSet x = true := by
  obtain ⟨hw, hw'⟩ := @heapWord_guardStart ptr sz hp hb
  unfold GuardWord
  by_cases hs : sz % 8 = 0
  · have hstart : guardStart ptr sz = ptr + sz := by simp only [guardStart]; omega
    rw [setSentinels_aligned hs, setSentinelAt, tryToSet_isSet (hstart ▸ hw) hx, hstart]
    simp [hs]
  · rw [setSentinels_nonAligned hsz hbs hs]
    dsimp only
    by_cases hgt : bs - sz > 8
    · rw [if_pos hgt, setSentinelAt, tryToSet_isSet hw' hx, store_isSet, tryToSet_isSet hw hx]
      simp only [hs, hgt, ne_eq, not_false_eq_true, true_and]
      rw [← or_assoc, or_comm (a := x = guardStart ptr sz + 8)]
      rfl
    · rw [if_neg hgt, tryToSet_isSet hw hx]
      simp only [hgt, false_and, and_false, or_false]
      rfl

end

theorem setSentinels_isBitSet {item : Nat} (hsz : sz ≤ bs) (hbs : bs < 2 ^ 64) :
    (setSentinels map ptr bs sz).bitmap.isBitSet item = true ↔ GuardItem ptr bs sz item ∨ map.bitmap.isBitSet item = true := by
  unfold GuardItem
  by_cases hs : sz % 8 = 0
  · rw [setSentinels_aligned hs, setSentinelAt, tryToSet_isBitSet, store_bitmap, guardStart, hs, Nat.sub_zero]
    simp only [ne_eq, not_true_eq_false, false_and, or_false]
  · rw [setSentinels_nonAligned hsz hbs hs]
    dsimp only
    split
    · rename_i hgt
      rw [setSentinelAt, tryToSet_isBitSet, store_bitmap, tryToSet_isBitSet]
      simp only [hs, hgt, ne_eq, not_false_eq_true, true_and]
      rw [or_left_comm, or_assoc]
    · rename_i hgt
      rw [tryToSet_isBitSet]
      simp only [hgt, false_and, and_false, or_false]

/-- Only the bytes of the guard are written. -/
theorem setSentinels_outside {a : Nat} (hsz : sz ≤ bs) (hbs : bs < 2 ^ 64) (hp : ptr % 8 = 0) (h : ¬ GuardByte ptr bs sz a) :
    (setSentinels map ptr bs sz).mem a = map.mem a := by
  by_cases hlo : a < ptr + sz
  · exact setSentinels_below hsz hbs hp hlo
  · simp only [GuardByte, Nat.not_lt.mp hlo, true_and] at h
    by_cases hs : sz % 8 = 0
    · rw [if_pos hs] at h
      rw [setSentinels_aligned hs]
      exact Mem.write_of_ge (by simp only [WORD_SIZE]; omega)
    · rw [if_neg hs] at h
      rw [setSentinels_nonAligned hsz hbs hs]
      dsimp only
      have hfill : fillMagicBytes map.mem (ptr + sz) (8 - sz % 8) a = map.mem a := fillMagicBytes_of_ge (by omega)
      split
      · rw [← hfill]
        exact Mem.write_of_ge (by simp only [guardStart, WORD_SIZE]; omega)
      · exact hfill

/-- The check finds the damage that is done to the guard, and no other, and it cleans what the guard has marked. -/
theorem guard_round_trip (map : SentinelMap) (hsz : sz ≤ bs) (hbs : bs < 2 ^ 64) (hp : ptr % 8 = 0) :
    (∀ a, ¬ GuardByte ptr bs sz a → (setSentinels map ptr bs sz).mem a = map.mem a) ∧
    (∀ item, (setSentinels map ptr bs sz).bitmap.isBitSet item = true ↔
      GuardItem ptr bs sz item ∨ map.bitmap.isBitSet item = true) ∧
    ∀ later : SentinelMap,
      (∀ c, (later.checkObjectOverflow ptr bs sz c).1 = true ↔
        ∃ a, GuardByte ptr bs sz a ∧ later.mem a ≠ (setSentinels map ptr bs sz).mem a) ∧
      ∀ item, (later.checkObjectOverflow ptr bs sz true).2.bitmap.isBitSet item = true ↔
        ¬ GuardItem ptr bs sz item ∧ later.bitmap.isBitSet item = true := by
  have hintact : GuardIntact (setSentinels map ptr bs sz).mem ptr bs sz := setSentinels_intact hsz hbs hp
  refine ⟨fun a ha => setSentinels_outside hsz hbs hp ha, fun item => setSentinels_isBitSet hsz hbs, fun later => ⟨fun c => ?_, fun item =>
    checkObjectOverflow_isBitSet hsz hbs⟩⟩
  rw [checkObjectOverflow_fst, ← Bool.not_eq_false, overflowed_eq_false hsz hbs, ← not_forall_not]
  refine not_congr ⟨fun hlater a ha => ha.2 (hlater.agree hintact hp ha.1), fun hsame => ?_⟩
  refine hintact.congr_bytes hp fun a ha => ?_
  by_contra hne
  exact hsame a ⟨ha, Ne.symm hne⟩

/-- Memory that is zero and not marked. -/
def emptyMap : SentinelMap := ⟨fun _ => 0, fun _ => 0#64, []⟩

/-- An object of 5 bytes in a block of 32: a zero in the byte after it is found. -/
theorem guard_round_trip_five : GuardByte USER_HEAP_BASE 32 5 (USER_HEAP_BASE + 5) ∧
    (setSentinels emptyMap USER_HEAP_BASE 32 5).mem (USER_HEAP_BASE + 5) = 2 ∧
    (emptyMap.checkObjectOverflow USER_HEAP_BASE 32 5 false).1 = true := by
  have hbyte : GuardByte USER_HEAP_BASE 32 5 (USER_HEAP_BASE + 5) := by
    simp only [GuardByte, USER_HEAP_BASE]
    decide
  have htwo : (setSentinels emptyMap USER_HEAP_BASE 32 5).mem (USER_HEAP_BASE + 5) = 2 := by decide +kernel
  obtain ⟨-, -, hcheck⟩ := guard_round_trip emptyMap (show 5 ≤ 32 by decide) (by decide) (show USER_HEAP_BASE % 8 = 0 by decide)
  refine ⟨hbyte, htwo, ((hcheck emptyMap).1 false).mpr ⟨_, hbyte, ?_⟩⟩
  rw [htwo]
  decide

/-! ### Words that hold a part of an object -/

/-- The count stops at the first byte from above that is not a magic byte. -/
theorem countMagicBytes_eq {m : Mem} {a k : Nat} (hrun : ∀ i < k, m (a + 1 + i) = MAGIC_BYTE_NOT_ALIGNED)
    (hstop : m a ≠ MAGIC_BYTE_NOT_ALIGNED) : countMagicBytes m (a + 1 + k) = (k, m a) := by
  induction k with
  | zero => rw [Nat.add_zero, countMagicBytes, if_neg hstop]
  | succ k ih =>
    have htop := hrun k (by omega)
    have hrest := ih fun i hi => hrun i (by omega)
    rw [show a + 1 + (k + 1) = a + 1 + k + 1 by omega, countMagicBytes, if_pos htop, hrest]

theorem le_countMagicBytes {m : Mem} {a k : Nat} (hrun : ∀ i < k, m (a + i) = MAGIC_BYTE_NOT_ALIGNED) :
    k ≤ (countMagicBytes m (a + k)).1 := by
  induction k with
  | zero => exact Nat.zero_le _
  | succ k ih =>
    have htop := hrun k (by omega)
    have hrest := ih fun i hi => hrun i (by omega)
    rw [show a + (k + 1) = a + k + 1 by omega, countMagicBytes, if_pos htop]
    exact Nat.succ_le_succ hrest

/-- `isCorruptedSentinel` takes the word for intact, and its loop ends inside of the word: it looks at one byte more than
    it counts. -/
def AcceptsWord (s : SentinelMap) (addr : Nat) : Prop :=
  (countMagicBytes s.mem (addr + WORD_SIZE)).1 < WORD_SIZE ∧ s.isCorruptedSentinel addr = false

theorem acceptsWord_iff {s : SentinelMap} {addr k : Nat} {stop : UInt8}
    (h : countMagicBytes s.mem (addr + WORD_SIZE) = (k, stop)) :
    AcceptsWord s addr ↔ k < WORD_SIZE ∧ k ≠ 0 ∧ (k = 1 ∨ stop.toNat = k) := by
  unfold AcceptsWord isCorruptedSentinel
  rw [h]
  refine and_congr_right fun _ => ?_
  by_cases h0 : k = 0
  · simp [h0]
  · simp only [h0, if_false, decide_eq_false_iff_not, not_and_or, ne_eq, not_not, not_false_eq_true, true_and]
    exact or_comm

/-- The bytes that an object of 7 bytes more than whole words has in its last word: they do not end with a magic byte, or
    before the `k` magic bytes at their end there is a byte of the value `k + 1`. -/
def PartFits (m : Mem) (w : Nat) : Prop :=
  ∃ k < 7, (∀ i < k, m (w + 7 - k + i) = MAGIC_BYTE_NOT_ALIGNED) ∧ m (w + 6 - k) ≠ MAGIC_BYTE_NOT_ALIGNED ∧
    (k = 0 ∨ (m (w + 6 - k)).toNat = k + 1)

/-- A guard of two or more bytes: its first byte ends the count, at the number that it holds. -/
theorem acceptsWord_of_length {s : SentinelMap} {w n : Nat} (hn : 2 ≤ n) (hn8 : n ≤ 7)
    (h : MagicBytes s.mem (w + 8 - n) n) : AcceptsWord s w := by
  obtain ⟨hlen, hmagic⟩ := h
  have hlen := hlen (by omega)
  have hstop : s.mem (w + 8 - n) ≠ MAGIC_BYTE_NOT_ALIGNED := by
    intro heq
    rw [heq, show (MAGIC_BYTE_NOT_ALIGNED).toNat = 126 from rfl] at hlen
    omega
  have hrun : ∀ i < n - 1, s.mem (w + 8 - n + 1 + i) = MAGIC_BYTE_NOT_ALIGNED := by
    intro i hi
    have := hmagic (1 + i) (by omega) (.inr (by omega))
    rwa [← Nat.add_assoc] at this
  have hcount := countMagicBytes_eq hrun hstop
  rw [show w + 8 - n + 1 + (n - 1) = w + 8 by omega] at hcount
  exact (acceptsWord_iff hcount).mpr ⟨by simp only [WORD_SIZE]; omega, by omega, .inr hlen⟩

/-- A guard of one byte: the bytes of the object before it take part in the count. -/
theorem acceptsWord_one_iff {s : SentinelMap} {w : Nat} (h : s.mem (w + 7) = MAGIC_BYTE_NOT_ALIGNED) :
    AcceptsWord s w ↔ PartFits s.mem w := by
  -- The count of `k` magic bytes in the part and one in the guard.
  have hcount : ∀ k < 7, (∀ i < k, s.mem (w + 7 - k + i) = MAGIC_BYTE_NOT_ALIGNED) → s.mem (w + 6 - k) ≠ MAGIC_BYTE_NOT_ALIGNED →
      countMagicBytes s.mem (w + WORD_SIZE) = (k + 1, s.mem (w + 6 - k)) := by
    intro k hk hrun hstop
    have hrun' : ∀ i < k + 1, s.mem (w + 6 - k + 1 + i) = MAGIC_BYTE_NOT_ALIGNED := by
      intro i hi
      by_cases hik : i = k
      · rw [show w + 6 - k + 1 + i = w + 7 by omega]
        exact h
      · rw [show w + 6 - k + 1 + i = w + 7 - k + i by omega]
        exact hrun i (by omega)
    have := countMagicBytes_eq hrun' hstop
    rwa [show w + 6 - k + 1 + (k + 1) = w + WORD_SIZE by simp only [WORD_SIZE]; omega] at this
  constructor
  · rintro ⟨hin, haccept⟩
    by_cases hex : ∃ k, k < 7 ∧ s.mem (w + 6 - k) ≠ MAGIC_BYTE_NOT_ALIGNED
    · -- The byte next to the guard that is not a magic byte.
      obtain ⟨hk, hstop⟩ := Nat.find_spec hex
      have hmin : ∀ j < Nat.find hex, s.mem (w + 6 - j) = MAGIC_BYTE_NOT_ALIGNED := by
        intro j hj
        have := Nat.find_min hex hj
        push Not at this
        exact this (by omega)
      generalize Nat.find hex = k at hk hstop hmin
      have hrun : ∀ i < k, s.mem (w + 7 - k + i) = MAGIC_BYTE_NOT_ALIGNED := by
        intro i hi
        rw [show w + 7 - k + i = w + 6 - (k - 1 - i) by omega]
        exact hmin _ (by omega)
      obtain ⟨-, -, hfit⟩ := (acceptsWord_iff (hcount k hk hrun hstop)).mp ⟨hin, haccept⟩
      exact ⟨k, hk, hrun, hstop, by omega⟩
    · -- Nothing but magic bytes: the loop leaves the word.
      push Not at hex
      have hall : ∀ i < 8, s.mem (w + i) = MAGIC_BYTE_NOT_ALIGNED := by
        intro i hi
        by_cases hi7 : i = 7
        · rw [hi7]
          exact h
        · rw [show w + i = w + 6 - (6 - i) by omega]
          exact hex _ (by omega)
      have := le_countMagicBytes hall
      simp only [WORD_SIZE] at hin
      omega
  · rintro ⟨k, hk, hrun, hstop, hfit⟩
    exact (acceptsWord_iff (hcount k hk hrun hstop)).mpr ⟨by simp only [WORD_SIZE]; omega, by omega, by omega⟩

/-- The test of the last word of an object that ends inside of it, whatever the object holds: it accepts the guard, except for
    some contents of an object that leaves one byte of the word. -/
theorem isCorruptedSentinel_accepts_iff (map later : SentinelMap) (hsz : sz ≤ bs) (hbs : bs < 2 ^ 64) (hp : ptr % 8 = 0)
    (h8 : sz % 8 ≠ 0) (hguard : Mem.Agree later.mem (setSentinels map ptr bs sz).mem (ptr + sz) (guardStart ptr sz + 8)) :
    AcceptsWord later (guardStart ptr sz) ↔ sz % 8 ≠ 7 ∨ PartFits later.mem (guardStart ptr sz) := by
  have hintact : GuardIntact (setSentinels map ptr bs sz).mem ptr bs sz := setSentinels_intact hsz hbs hp
  rw [GuardIntact, if_neg h8] at hintact
  have hend : ptr + sz = guardStart ptr sz + 8 - (8 - sz % 8) := by
    simp only [guardStart]
    omega
  have hmagic : MagicBytes later.mem (guardStart ptr sz + 8 - (8 - sz % 8)) (8 - sz % 8) := by
    rw [← hend]
    refine hintact.1.congr (by omega) (hguard.symm.mono (Nat.le_refl _) ?_)
    simp only [guardStart]
    omega
  by_cases h7 : sz % 8 = 7
  · rw [or_iff_right (by omega)]
    refine acceptsWord_one_iff ?_
    rw [h7] at hmagic
    exact hmagic.2 0 (by decide) (.inl rfl)
  · exact iff_of_true (acceptsWord_of_length (by omega) (by omega) hmagic) (.inl h7)

/-- An object of 5 bytes in a block of 32. -/
theorem isCorruptedSentinel_accepts_five :
    AcceptsWord (setSentinels emptyMap USER_HEAP_BASE 32 5) (guardStart USER_HEAP_BASE 5) :=
  (isCorruptedSentinel_accepts_iff emptyMap _ (by decide) (by decide) (by decide) (by decide) (Mem.Agree.refl _ _ _)).mpr
    (.inl (by decide))

/-- An object of 7 bytes that ends with a zero and a magic byte. -/
theorem isCorruptedSentinel_rejects_seven : ¬ ∀ (map later : SentinelMap) (ptr bs sz : Nat), sz ≤ bs → bs < 2 ^ 64 → ptr % 8 = 0 →
    sz % 8 ≠ 0 → Mem.Agree later.mem (setSentinels map ptr bs sz).mem (ptr + sz) (guardStart ptr sz + 8) →
    AcceptsWord later (guardStart ptr sz) := by
  intro h
  let written := setSentinels emptyMap USER_HEAP_BASE 32 7
  have hagree : Mem.Agree (written.mem.set (USER_HEAP_BASE + 6) MAGIC_BYTE_NOT_ALIGNED) written.mem (USER_HEAP_BASE + 7)
      (guardStart USER_HEAP_BASE 7 + 8) := fun a h₁ _ => Mem.set_of_ne (by omega)
  have haccept := h emptyMap { written with mem := written.mem.set (USER_HEAP_BASE + 6) MAGIC_BYTE_NOT_ALIGNED } USER_HEAP_BASE 32 7
    (by decide) (by decide) (by decide) (by decide) hagree
  have hcorrupted : SentinelMap.isCorruptedSentinel
      { written with mem := written.mem.set (USER_HEAP_BASE + 6) MAGIC_BYTE_NOT_ALIGNED } (guardStart USER_HEAP_BASE 7) = true := by
    decide +kernel
  rw [haccept.2] at hcorrupted
  cases hcorrupted

/-! ### Canary words -/

/-- The words that `markFreeObject` fills hold the canary. -/
def CanaryIntact (m : Mem) (ptr size : Nat) : Prop :=
  ∀ i < Quarantine.getMarkWords size, m.read (ptr + i * 8) 8 = SENTINEL_WORD

theorem getMarkWords_le (size : Nat) : Quarantine.getMarkWords size * 8 ≤ size := by
  simp only [Quarantine.getMarkWords, FREE_OBJECT_CANARY_SIZE, FREE_OBJECT_CANARY_WORDS, WORD_SIZE]
  split <;> omega

theorem CanaryIntact.congr {m m' : Mem} {size : Nat} (h : CanaryIntact m ptr size)
    (hm : Mem.Agree m m' ptr (ptr + size)) : CanaryIntact m' ptr size := by
  intro i hi
  have := getMarkWords_le size
  rw [← h i hi]
  exact Mem.read_congr (hm.symm.mono (by omega) (by omega))

/-- The canary loop after `n` rounds. -/
theorem markFreeObject_rounds (m : Mem) (ptr n : Nat) :
    let m' := (List.range n).foldl (fun m i => m.write (ptr + i * WORD_SIZE) WORD_SIZE SENTINEL_WORD) m
    (∀ i < n, m'.read (ptr + i * 8) 8 = SENTINEL_WORD) ∧ ∀ a, a < ptr ∨ ptr + n * 8 ≤ a → m' a = m a := by
  induction n with
  | zero => exact ⟨fun i hi => absurd hi (by omega), fun a _ => rfl⟩
  | succ n ih =>
    obtain ⟨hin, hout⟩ := ih
    rw [List.range_succ, List.foldl_append]
    simp only [List.foldl_cons, List.foldl_nil, WORD_SIZE] at hin hout ⊢
    refine ⟨fun i hi => ?_, fun a ha => ?_⟩
    · by_cases hn : i = n
      · rw [hn]
        exact Mem.read_write_of_lt _ _ sentinel_word_lt
      · exact (Mem.read_congr (Mem.agree_write_left (by omega))).trans (hin i (by omega))
    · rw [← hout a (by omega)]
      by_cases hlt : a < ptr + n * 8
      · exact Mem.write_of_lt hlt
      · exact Mem.write_of_ge (by omega)

theorem markFreeObject_intact (m : Mem) (ptr size : Nat) : CanaryIntact (markFreeObject m ptr size) ptr size :=
  (markFreeObject_rounds m ptr _).1

theorem markFreeObject_outside (m : Mem) {ptr size a : Nat} (h : a < ptr ∨ ptr + size ≤ a) :
    markFreeObject m ptr size a = m a :=
  (markFreeObject_rounds m ptr _).2 a (by have := getMarkWords_le size; omega)

/-- An object with its canary intact passes the check, which then changes nothing. -/
theorem hasUsageAfterFree_intact {object : FreeObject} (h : CanaryIntact map.mem object.ptr object.size) :
    hasUsageAfterFree map object = (false, map) := by
  have : brokenCanaries map.mem object = [] := by
    rw [brokenCanaries, List.filter_eq_nil_iff]
    simp only [List.mem_map, List.mem_range, forall_exists_index, and_imp, WORD_SIZE]
    rintro a i hi rfl
    simp [h i hi]
  rw [hasUsageAfterFree, this]
  rfl

end XMemory
end DoubleTake
