import DoubleTake.SentinelMap
import DoubleTake.Theorems.Bitmap

/-! Marking and checking single words and single objects: what the operations of the sentinel map change, and what
    `checkObjectOverflow` decides about the guard behind an object. -/

namespace DoubleTake
namespace SentinelMap

variable {s : SentinelMap} {a b x : Nat}

/-! ### Words and their bits -/

/-- The address of a word of the heap. -/
def HeapWord (a : Nat) : Prop := USER_HEAP_BASE ≤ a ∧ a % 8 = 0

theorem getIndex_eq_iff (ha : HeapWord a) (hb : HeapWord b) : getIndex a = getIndex b ↔ a = b := by
  simp only [HeapWord, USER_HEAP_BASE] at ha hb
  simp only [getIndex, WORD_SIZE, USER_HEAP_BASE]
  omega

theorem heapWord_item (i : Nat) : HeapWord (getHeapAddressFromItem i) := by
  simp only [HeapWord, getHeapAddressFromItem, USER_HEAP_BASE, WORD_SIZE]
  omega

theorem getIndex_item (i : Nat) : getIndex (getHeapAddressFromItem i) = i := by
  simp only [getIndex, getHeapAddressFromItem, WORD_SIZE]
  omega

theorem item_getIndex (ha : HeapWord a) : getHeapAddressFromItem (getIndex a) = a := by
  simp only [HeapWord, USER_HEAP_BASE] at ha
  simp only [getIndex, getHeapAddressFromItem, WORD_SIZE, USER_HEAP_BASE]
  omega

@[simp] theorem tryToSet_mem : (s.tryToSet a).mem = s.mem := rfl
@[simp] theorem tryToSet_wp : (s.tryToSet a).wp = s.wp := rfl
@[simp] theorem clear_mem : (s.clear a).mem = s.mem := rfl
@[simp] theorem clear_wp : (s.clear a).wp = s.wp := rfl
@[simp] theorem store_wp {v : Nat} : (s.store a v).wp = s.wp := rfl
@[simp] theorem store_bitmap {v : Nat} : (s.store a v).bitmap = s.bitmap := rfl
@[simp] theorem store_isSet {v : Nat} : (s.store a v).isSet x = s.isSet x := rfl

theorem tryToSet_isSet (ha : HeapWord a) (hx : HeapWord x) :
    (s.tryToSet a).isSet x = true ↔ x = a ∨ s.isSet x = true := by
  rw [isSet, tryToSet, Bitmap.checkSetBit_isBitSet, Bool.or_eq_true, beq_iff_eq, getIndex_eq_iff hx ha]
  rfl

theorem clear_isSet (ha : HeapWord a) (hx : HeapWord x) :
    (s.clear a).isSet x = true ↔ x ≠ a ∧ s.isSet x = true := by
  rw [isSet, clear, Bitmap.clearBit_isBitSet, Bool.and_eq_true, bne_iff_ne, ne_eq, getIndex_eq_iff hx ha]
  rfl

/-! ### The guard behind an object -/

/-- The word in which the guard of an object begins: the one that holds the byte after the object. -/
def guardStart (ptr sz : Nat) : Nat := ptr + sz - sz % 8

/-- The words that guard an object of `sz` bytes in a block of `bs`: the first one, and the next one when the first
    holds a part of the object and the block reaches beyond it. -/
def GuardWord (ptr bs sz w : Nat) : Prop :=
  w = guardStart ptr sz ∨ sz % 8 ≠ 0 ∧ bs - sz > 8 ∧ w = guardStart ptr sz + 8

/-- The `n` bytes at `p` as `setSentinels` fills them in a word that holds a part of the object. -/
def MagicBytes (m : Mem) (p n : Nat) : Prop :=
  (n ≠ 1 → (m p).toNat = n - 1) ∧ ∀ i < n, (n = 1 ∨ 1 ≤ i) → m (p + i) = MAGIC_BYTE_NOT_ALIGNED

/-- The guard is as `setSentinels` left it. -/
def GuardIntact (m : Mem) (ptr bs sz : Nat) : Prop :=
  if sz % 8 = 0 then m.read (ptr + sz) 8 = SENTINEL_WORD
  else MagicBytes m (ptr + sz) (8 - sz % 8) ∧ (bs - sz > 8 → m.read (guardStart ptr sz + 8) 8 = SENTINEL_WORD)

theorem checkSentinel_eq_false : s.checkSentinel a = false ↔ s.mem.read a 8 = SENTINEL_WORD := by
  simp [checkSentinel, word]

theorem checkMagicBytes_eq_false {p n : Nat} (hn : 1 ≤ n) : s.checkMagicBytes p n = false ↔ MagicBytes s.mem p n := by
  rw [checkMagicBytes, MagicBytes]
  by_cases h1 : n = 1
  · subst h1
    simp only [gt_iff_lt, Nat.lt_irrefl, false_and, if_false, if_true, bne_eq_false_iff_eq, ne_eq, not_true_eq_false,
      false_implies, true_and, true_or, forall_const]
    constructor
    · intro h i hi
      rw [show i = 0 by omega, Nat.add_zero]
      exact h
    · exact fun h => h 0 (by omega)
  · by_cases hp : (s.mem p).toNat = n - 1
    · rw [if_pos ⟨by omega, hp⟩]
      simp only [List.any_eq_false, List.mem_range, bne_iff_ne, ne_eq, not_not, h1, not_false_eq_true, true_implies, hp,
        false_or, true_and]
      constructor
      · intro h i hi h0
        have := h (i - 1) (by omega)
        rwa [show i - 1 + 1 = i by omega] at this
      · exact fun h i hi => h (i + 1) (by omega) (by omega)
    · rw [if_neg (fun h => hp h.2), if_neg h1]
      simp only [Bool.true_eq_false, false_iff, not_and]
      exact fun h => absurd (h h1) hp

theorem MagicBytes.congr {m m' : Mem} {p n : Nat} (h : MagicBytes m p n) (hn : 1 ≤ n)
    (hm : Mem.Agree m m' p (p + n)) : MagicBytes m' p n := by
  refine ⟨fun h1 => ?_, fun i hi h1 => ?_⟩
  · rw [← hm p (by omega) (by omega)]
    exact h.1 h1
  · rw [← hm (p + i) (by omega) (by omega)]
    exact h.2 i hi h1

/-- The bytes of the guard: from the end of the object to the end of its word, or the next word after an object that ends
    with one, and one more word when a partial one leaves room for it. -/
def GuardByte (ptr bs sz a : Nat) : Prop :=
  ptr + sz ≤ a ∧ (if sz % 8 = 0 then a < ptr + sz + 8 else a < (ptr + sz) / 8 * 8 + 8 ∨ bs - sz > 8 ∧ a < (ptr + sz) / 8 * 8 + 16)

theorem GuardIntact.congr_bytes {m m' : Mem} {ptr bs sz : Nat} (h : GuardIntact m ptr bs sz) (hp : ptr % 8 = 0)
    (hm : ∀ a, GuardByte ptr bs sz a → m a = m' a) : GuardIntact m' ptr bs sz := by
  unfold GuardIntact guardStart at h ⊢
  unfold GuardByte at hm
  by_cases h8 : sz % 8 = 0
  · rw [if_pos h8] at h ⊢
    rw [← h]
    exact (Mem.read_congr fun a h₁ h₂ => hm a ⟨h₁, by rwa [if_pos h8]⟩).symm
  · rw [if_neg h8] at h ⊢
    refine ⟨h.1.congr (by omega) fun a h₁ h₂ => hm a ⟨h₁, ?_⟩, fun hgt => ?_⟩
    · rw [if_neg h8]
      omega
    · rw [← h.2 hgt]
      refine (Mem.read_congr fun a h₁ h₂ => hm a ⟨by omega, ?_⟩).symm
      rw [if_neg h8]
      omega

theorem MagicBytes.agree {m m' : Mem} {p n : Nat} (h : MagicBytes m p n) (h' : MagicBytes m' p n) : Mem.Agree m m' p (p + n) := by
  intro a h₁ h₂
  by_cases hmagic : n = 1 ∨ 1 ≤ a - p
  · have hm := h.2 (a - p) (by omega) hmagic
    have hm' := h'.2 (a - p) (by omega) hmagic
    rw [show p + (a - p) = a by omega] at hm hm'
    rw [hm, hm']
  · -- the byte that holds the length
    have ha : a = p := by omega
    rw [ha]
    exact UInt8.toNat_inj.mp ((h.1 (by omega)).trans (h'.1 (by omega)).symm)

/-- There is one way for a guard to be intact. -/
theorem GuardIntact.agree {m m' : Mem} {ptr bs sz a : Nat} (h : GuardIntact m ptr bs sz) (h' : GuardIntact m' ptr bs sz)
    (hp : ptr % 8 = 0) (ha : GuardByte ptr bs sz a) : m a = m' a := by
  obtain ⟨hlo, hhi⟩ := ha
  unfold GuardIntact guardStart at h h'
  by_cases h8 : sz % 8 = 0
  · rw [if_pos h8] at h h' hhi
    exact Mem.agree_of_read (h.trans h'.symm) a hlo hhi
  · rw [if_neg h8] at h h' hhi
    by_cases hword : a < ptr + sz + (8 - sz % 8)
    · exact h.1.agree h'.1 a hlo hword
    · have hgt : bs - sz > 8 := by omega
      exact Mem.agree_of_read ((h.2 hgt).trans (h'.2 hgt).symm) a (by omega) (by omega)

/-- The guard lies between the end of the object and one word after the block. -/
theorem GuardIntact.congr {m m' : Mem} {ptr bs sz : Nat} (h : GuardIntact m ptr bs sz) (hp : ptr % 8 = 0) (hsz : sz ≤ bs)
    (hbs : bs % 8 = 0) (hm : Mem.Agree m m' (ptr + sz) (ptr + bs + 8)) : GuardIntact m' ptr bs sz := by
  refine h.congr_bytes hp fun a ha => hm a ha.1 ?_
  obtain ⟨-, hhi⟩ := ha
  split at hhi <;> omega

/-- A word whose last byte is a magic byte is none of the preset sentinels. -/
theorem isPreset_of_magic {w : Nat} (h : s.mem (w + 7) = MAGIC_BYTE_NOT_ALIGNED) : s.isPreset w = false := by
  have hsplit := Mem.read_add s.mem w 7 1
  have hlow := Mem.read_lt s.mem w 7
  have htop : s.mem.read (w + 7) 1 = 0x7E := by
    simp [Mem.read, h, MAGIC_BYTE_NOT_ALIGNED]
  rw [htop] at hsplit
  have hword : s.word w = s.mem.read w 7 + 256 ^ 7 * 0x7E := hsplit
  rw [isPreset, Bool.or_eq_false_iff, beq_eq_false_iff_ne, beq_eq_false_iff_ne, hword]
  constructor <;> simp only [SENTINEL_WORD, MEMALIGN_SENTINEL_WORD] <;> omega

/-- The last byte of a partly filled guard word is a magic byte. -/
theorem GuardIntact.last_magic {m : Mem} {ptr bs sz : Nat} (h : GuardIntact m ptr bs sz) (hp : ptr % 8 = 0) (hne : sz % 8 ≠ 0) :
    m (guardStart ptr sz + 7) = MAGIC_BYTE_NOT_ALIGNED := by
  rw [GuardIntact, if_neg hne] at h
  have hlast := h.1.2 (7 - sz % 8) (by omega) (by omega)
  rwa [show ptr + sz + (7 - sz % 8) = guardStart ptr sz + 7 by simp only [guardStart]; omega] at hlast

theorem GuardWord.bounds {ptr bs sz w : Nat} (h : GuardWord ptr bs sz w) (hp : ptr % 8 = 0) (hsz : sz ≤ bs)
    (hbs : bs % 8 = 0) : ptr ≤ w ∧ w ≤ ptr + bs ∧ w % 8 = 0 := by
  unfold GuardWord guardStart at h
  omega

/-! ### The check of one object -/

theorem addWatchpoint_ne_nil {addr objectstart : Nat} {t : FaultyObjectType} : (s.addWatchpoint addr t objectstart).wp ≠ [] := by
  simp only [addWatchpoint, DoubleTake.addWatchpoint]
  split
  · simp
  · next h =>
    intro hnil
    simp [hnil, MAX_WATCHPOINTS] at h

@[simp] theorem addWatchpoint_mem {addr o : Nat} {t : FaultyObjectType} : (s.addWatchpoint addr t o).mem = s.mem := rfl
@[simp] theorem addWatchpoint_bitmap {addr o : Nat} {t : FaultyObjectType} :
    (s.addWatchpoint addr t o).bitmap = s.bitmap := rfl

/-- The object is overflowed: what `checkObjectOverflow` returns, with or without cleaning. -/
def overflowed (s : SentinelMap) (ptr bs sz : Nat) : Bool := (s.checkObjectOverflow ptr bs sz false).1

theorem checkObjectOverflow_fst {ptr bs sz : Nat} {c : Bool} :
    (s.checkObjectOverflow ptr bs sz c).1 = s.overflowed ptr bs sz := by
  unfold overflowed checkObjectOverflow
  by_cases h8 : sz % WORD_SIZE = 0
  · simp only [h8, if_true]
  · simp only [h8, if_false]

theorem overflowed_eq_false {ptr bs sz : Nat} (hsz : sz ≤ bs) (hbs : bs < 2 ^ 64) :
    s.overflowed ptr bs sz = false ↔ GuardIntact s.mem ptr bs sz := by
  unfold overflowed checkObjectOverflow GuardIntact guardStart
  simp only [WORD_SIZE]
  rw [show (2 ^ 64 + bs - sz) % 2 ^ 64 = bs - sz by omega]
  by_cases h8 : sz % 8 = 0
  · simp only [h8, if_true, checkSentinel_eq_false]
  · simp only [h8, if_false, Bool.or_eq_false_iff, checkMagicBytes_eq_false (show 1 ≤ 8 - sz % 8 by omega),
      Bool.and_eq_false_iff, checkSentinel_eq_false]
    by_cases hgt : bs - sz > 8
    · simp only [hgt, decide_true, Bool.true_eq_false, false_or, true_implies]
    · simp only [hgt, decide_false, true_or, false_implies]

/-- Without cleaning, a check that finds nothing changes nothing, and one that finds an overflow adds a watchpoint
    and changes nothing else. -/
theorem checkObjectOverflow_keep {ptr bs sz : Nat} :
    (s.overflowed ptr bs sz = false ∧ s.checkObjectOverflow ptr bs sz false = (false, s)) ∨
      (s.overflowed ptr bs sz = true ∧ ∃ wp, wp ≠ [] ∧
        s.checkObjectOverflow ptr bs sz false = (true, { s with wp := wp })) := by
  unfold overflowed checkObjectOverflow
  by_cases h8 : sz % WORD_SIZE = 0
  · simp only [h8, if_true, Bool.false_eq_true, if_false]
    cases hov : s.checkSentinel (ptr + sz)
    · exact .inl ⟨rfl, rfl⟩
    · exact .inr ⟨rfl, _, addWatchpoint_ne_nil, rfl⟩
  · simp only [h8, if_false, Bool.false_eq_true, and_false]
    cases hov : s.checkMagicBytes (ptr + sz) (WORD_SIZE - sz % WORD_SIZE) <;>
      cases hnx : decide ((2 ^ 64 + bs - sz) % 2 ^ 64 > WORD_SIZE) && s.checkSentinel (ptr + sz - sz % WORD_SIZE + WORD_SIZE)
    · exact .inl ⟨rfl, rfl⟩
    · exact .inr ⟨rfl, _, addWatchpoint_ne_nil, rfl⟩
    · exact .inr ⟨rfl, _, addWatchpoint_ne_nil, rfl⟩
    · exact .inr ⟨rfl, _, addWatchpoint_ne_nil, rfl⟩

/-- The map after the bits of an object's guard have been cleared. -/
def cleanGuard (s : SentinelMap) (ptr bs sz : Nat) : SentinelMap :=
  if sz % 8 ≠ 0 ∧ bs - sz > 8 then (s.clear (guardStart ptr sz + 8)).clear (guardStart ptr sz)
  else s.clear (guardStart ptr sz)

/-- Cleaning an intact guard clears its bits and changes nothing else. -/
theorem checkObjectOverflow_clean {ptr bs sz : Nat} (hsz : sz ≤ bs) (hbs : bs < 2 ^ 64)
    (h : GuardIntact s.mem ptr bs sz) : s.checkObjectOverflow ptr bs sz true = (false, s.cleanGuard ptr bs sz) := by
  have hov := (@overflowed_eq_false s ptr bs sz hsz hbs).mpr h
  unfold overflowed checkObjectOverflow at hov
  unfold checkObjectOverflow cleanGuard guardStart
  simp only [WORD_SIZE] at hov ⊢
  rw [show (2 ^ 64 + bs - sz) % 2 ^ 64 = bs - sz by omega] at hov ⊢
  by_cases h8 : sz % 8 = 0
  · simp only [h8, if_true] at hov
    simp only [h8, if_true, hov, Bool.false_eq_true, if_false, ne_eq, not_true_eq_false, false_and, Nat.sub_zero]
  · simp only [h8, if_false, Bool.or_eq_false_iff] at hov
    simp only [h8, if_false, hov.1, hov.2, Bool.or_false, Bool.false_eq_true, if_true, ne_eq, not_false_eq_true, true_and,
      and_true]
    by_cases hgt : bs - sz > 8
    · rw [if_pos hgt, if_pos hgt]
    · rw [if_neg hgt, if_neg hgt]

/-- The items of the guard words. -/
def GuardItem (ptr bs sz item : Nat) : Prop :=
  item = getIndex (guardStart ptr sz) ∨ sz % 8 ≠ 0 ∧ bs - sz > 8 ∧ item = getIndex (guardStart ptr sz + 8)

theorem clear_isBitSet {item : Nat} : (s.clear a).bitmap.isBitSet item = true ↔ item ≠ getIndex a ∧ s.bitmap.isBitSet item = true := by
  rw [clear, Bitmap.clearBit_isBitSet, Bool.and_eq_true, bne_iff_ne]

theorem tryToSet_isBitSet {item : Nat} :
    (s.tryToSet a).bitmap.isBitSet item = true ↔ item = getIndex a ∨ s.bitmap.isBitSet item = true := by
  rw [tryToSet, Bitmap.checkSetBit_isBitSet, Bool.or_eq_true, beq_iff_eq]

/-- Cleaning clears the items of the guard, whatever the check finds. -/
theorem checkObjectOverflow_isBitSet {ptr bs sz item : Nat} (hsz : sz ≤ bs) (hbs : bs < 2 ^ 64) :
    (s.checkObjectOverflow ptr bs sz true).2.bitmap.isBitSet item = true ↔
      ¬ GuardItem ptr bs sz item ∧ s.bitmap.isBitSet item = true := by
  have hwp : ∀ (c : Bool) (s : SentinelMap) addr, (if c then s.addWatchpoint addr .overflow ptr else s).bitmap = s.bitmap := by
    intro c s addr
    cases c <;> rfl
  unfold checkObjectOverflow GuardItem guardStart
  simp only [WORD_SIZE]
  rw [show (2 ^ 64 + bs - sz) % 2 ^ 64 = bs - sz by omega]
  by_cases h8 : sz % 8 = 0
  · simp only [h8, if_true, hwp, clear_isBitSet, Nat.sub_zero, ne_eq, not_true_eq_false, false_and, or_false]
  · by_cases hgt : bs - sz > 8
    · simp only [h8, if_false, hgt, and_self, if_true, hwp, clear_isBitSet, ne_eq, not_false_eq_true, true_and, not_or]
      rw [and_assoc]
    · simp only [h8, if_false, hgt, false_and, if_true, hwp, clear_isBitSet, ne_eq, and_false, or_false]

@[simp] theorem cleanGuard_mem {ptr bs sz : Nat} : (s.cleanGuard ptr bs sz).mem = s.mem := by
  unfold cleanGuard
  split <;> rfl

@[simp] theorem cleanGuard_wp {ptr bs sz : Nat} : (s.cleanGuard ptr bs sz).wp = s.wp := by
  unfold cleanGuard
  split <;> rfl

theorem heapWord_guardStart {ptr sz : Nat} (hp : ptr % 8 = 0) (hb : USER_HEAP_BASE ≤ ptr) :
    HeapWord (guardStart ptr sz) ∧ HeapWord (guardStart ptr sz + 8) := by
  simp only [HeapWord, guardStart]
  omega

theorem cleanGuard_isSet {ptr bs sz : Nat} (hp : ptr % 8 = 0) (hb : USER_HEAP_BASE ≤ ptr) (hx : HeapWord x) :
    (s.cleanGuard ptr bs sz).isSet x = true ↔ ¬ GuardWord ptr bs sz x ∧ s.isSet x = true := by
  obtain ⟨hw, hw'⟩ := @heapWord_guardStart ptr sz hp hb
  unfold cleanGuard GuardWord
  by_cases hc : sz % 8 ≠ 0 ∧ bs - sz > 8
  · rw [if_pos hc, clear_isSet hw hx, clear_isSet hw' hx]
    simp only [hc.1, hc.2, true_and, not_or, ne_eq, and_assoc, not_false_eq_true]
  · rw [if_neg hc, clear_isSet hw hx]
    have : ¬ (sz % 8 ≠ 0 ∧ bs - sz > 8 ∧ x = guardStart ptr sz + 8) := fun h => hc ⟨h.1, h.2.1⟩
    simp only [this, or_false, ne_eq]

/-! ### Cleaning a range of the heap -/

/-- Whole pages of the heap. -/
def HeapPages (start size : Nat) : Prop :=
  start % PageSize = 0 ∧ size % PageSize = 0 ∧ USER_HEAP_BASE ≤ start ∧ start + size ≤ USER_HEAP_BASE + USER_HEAP_SIZE

/-- `cleanup` clears the bits of the words in the range and changes nothing else, and all bytes that it writes are in
    the bitmap. -/
def CleansRange (s : SentinelMap) (start size : Nat) : Prop :=
  ∃ s', s.cleanup start size = some s' ∧ s'.mem = s.mem ∧ s'.wp = s.wp ∧
    (∀ item < elements, s'.bitmap.isBitSet item = true ↔
      ¬ (start ≤ getHeapAddressFromItem item ∧ getHeapAddressFromItem item < start + size) ∧ s.bitmap.isBitSet item = true) ∧
    ∀ k, (Bitmap.clearedBytes (getIndex start) (getBitSize size)).1 ≤ k →
      k < (Bitmap.clearedBytes (getIndex start) (getBitSize size)).1 + (Bitmap.clearedBytes (getIndex start) (getBitSize size)).2 →
      k < totalBytes

/-- What `cleanup` needs: it clears the bits of eight times as many bytes as it is asked to. -/
def RoomToClean (s : SentinelMap) (start size : Nat) : Prop :=
  start + 8 * size ≤ USER_HEAP_BASE + USER_HEAP_SIZE ∧ ∀ item, start + size ≤ getHeapAddressFromItem item →
    getHeapAddressFromItem item < start + 8 * size → s.bitmap.isBitSet item = false

theorem cleanup_isBitSet {start size : Nat} (h : HeapPages start size) :
    ∃ s', s.cleanup start size = some s' ∧ s'.mem = s.mem ∧ s'.wp = s.wp ∧
      ∀ item, s'.bitmap.isBitSet item = true ↔
        ¬ (start ≤ getHeapAddressFromItem item ∧ getHeapAddressFromItem item < start + 8 * size) ∧
          s.bitmap.isBitSet item = true := by
  obtain ⟨hstart, hsize, hlo, -⟩ := h
  simp only [PageSize, USER_HEAP_BASE] at hstart hsize hlo
  obtain ⟨b', hb', hbits⟩ := @Bitmap.clearBits_isBitSet s.bitmap (getIndex start) (getBitSize size)
    (by simp only [getIndex, USER_HEAP_BASE, WORD_SIZE]; omega) (by simp only [getBitSize, WORD_SIZE]; omega)
  refine ⟨{ s with bitmap := b' }, by rw [cleanup, hb', Option.map_some], rfl, rfl, fun item => ?_⟩
  rw [hbits item]
  refine and_congr_left' (not_congr ?_)
  simp only [getIndex, getBitSize, getHeapAddressFromItem, USER_HEAP_BASE, WORD_SIZE]
  omega

/-- The bits that are cleared for whole pages are those of eight times as many bytes. -/
theorem clearedBytes_pages {start size : Nat} (hbase : USER_HEAP_BASE ≤ start) (hstart : start % PageSize = 0) (hsize : size % PageSize = 0) :
    Bitmap.clearedBytes (getIndex start) (getBitSize size) = ((start - USER_HEAP_BASE) / 64, size / 8) := by
  simp only [PageSize, USER_HEAP_BASE] at hbase hstart hsize
  refine Prod.ext ?_ ?_
  · simp only [Bitmap.clearedBytes, Bitmap.getIndexes, getIndex, WORDBITS, USER_HEAP_BASE, WORD_SIZE]
    omega
  · simp only [Bitmap.clearedBytes, Bitmap.getIndexes, getIndex, getBitSize, WORDBITS, WORDSIZE, USER_HEAP_BASE, WORD_SIZE]
    omega

theorem clearsInside_iff {start size : Nat} (hbase : USER_HEAP_BASE ≤ start) (hstart : start % PageSize = 0) (hsize : size % PageSize = 0) :
    ClearsInside start size ↔ start + 8 * size ≤ USER_HEAP_BASE + USER_HEAP_SIZE := by
  have htotal : totalBytes = 134217728 := rfl
  rw [ClearsInside, clearedBytes_pages hbase hstart hsize, htotal]
  simp only [PageSize, USER_HEAP_BASE, USER_HEAP_SIZE] at hbase hstart hsize ⊢
  omega

theorem cleanup_bytes {start size : Nat} (h : HeapPages start size) :
    (∀ k, (Bitmap.clearedBytes (getIndex start) (getBitSize size)).1 ≤ k →
      k < (Bitmap.clearedBytes (getIndex start) (getBitSize size)).1 + (Bitmap.clearedBytes (getIndex start) (getBitSize size)).2 →
      k < totalBytes) ↔ start + 8 * size ≤ USER_HEAP_BASE + USER_HEAP_SIZE := by
  obtain ⟨hstart, hsize, hlo, hhi⟩ := h
  have htotal : totalBytes = 134217728 := rfl
  rw [clearedBytes_pages hlo hstart hsize, htotal]
  simp only [PageSize, USER_HEAP_BASE, USER_HEAP_SIZE] at hstart hsize hlo hhi ⊢
  constructor
  · intro h
    -- the last byte that is written
    by_cases h0 : size = 0
    · omega
    · have := h ((start - 0x100000000) / 64 + size / 8 - 1) (by omega) (by omega)
      omega
  · intro h k h₁ h₂
    omega

/-- `cleanup` is exact where the bits that it clears in excess are bits of the heap and clear already. -/
theorem cleanup_exact_iff {start size : Nat} (h : HeapPages start size) : CleansRange s start size ↔ RoomToClean s start size := by
  unfold CleansRange RoomToClean
  rw [cleanup_bytes h]
  obtain ⟨s₁, hs₁, hmem, hwp, hbits⟩ := @cleanup_isBitSet s start size h
  obtain ⟨hstart, hsize, hlo, hhi⟩ := h
  simp only [PageSize, USER_HEAP_BASE, USER_HEAP_SIZE] at hstart hsize hlo hhi
  constructor
  · rintro ⟨s', hs', -, -, hclean, hroom⟩
    rw [hs₁, Option.some.injEq] at hs'
    subst hs'
    refine ⟨hroom, fun item h₁ h₂ => ?_⟩
    have hitem : item < elements := by
      simp only [getHeapAddressFromItem, USER_HEAP_BASE, USER_HEAP_SIZE, WORD_SIZE] at h₂ hroom
      simp only [elements, USER_HEAP_SIZE, WORD_SIZE]
      omega
    -- Outside of the range the bit should stay, but it is cleared.
    by_contra hset
    rw [Bool.not_eq_false] at hset
    have hkept := (hclean item hitem).mpr ⟨fun hin => by omega, hset⟩
    exact ((hbits item).mp hkept).1 ⟨by omega, h₂⟩
  · rintro ⟨hroom, hclear⟩
    refine ⟨s₁, hs₁, hmem, hwp, fun item _ => (hbits item).trans (and_congr_left fun hset => not_congr ?_), hroom⟩
    constructor
    · rintro ⟨h₁, h₂⟩
      refine ⟨h₁, ?_⟩
      by_contra hout
      have := hclear item (by omega) h₂
      rw [hset] at this
      cases this
    · rintro ⟨h₁, h₂⟩
      exact ⟨h₁, by omega⟩

/-- The second word of the heap is marked, and one behind all that a cleaning of the first page clears. -/
def twoMarked : SentinelMap :=
  ((⟨fun _ => 0, fun _ => 0#64, []⟩ : SentinelMap).tryToSet (USER_HEAP_BASE + 8)).tryToSet (USER_HEAP_BASE + 32768)

theorem twoMarked_isBitSet {item : Nat} : twoMarked.bitmap.isBitSet item = true ↔ item = 4096 ∨ item = 1 := by
  rw [twoMarked, tryToSet_isBitSet, tryToSet_isBitSet, Bitmap.isBitSet_eq, show (0#64).getLsbD (item % 64) = false from BitVec.getLsbD_zero,
    show getIndex (USER_HEAP_BASE + 32768) = 4096 by decide, show getIndex (USER_HEAP_BASE + 8) = 1 by decide]
  simp

theorem cleanup_exact_two : CleansRange twoMarked USER_HEAP_BASE 4096 ∧
    ∃ s', twoMarked.cleanup USER_HEAP_BASE 4096 = some s' ∧ ¬ s'.bitmap.isBitSet 1 = true ∧ s'.bitmap.isBitSet 4096 = true := by
  have hclean : CleansRange twoMarked USER_HEAP_BASE 4096 := by
    refine (cleanup_exact_iff ⟨by decide, by decide, by decide, by decide⟩).mpr ⟨by decide, fun item h₁ h₂ => ?_⟩
    rw [← Bool.not_eq_true, twoMarked_isBitSet]
    simp only [getHeapAddressFromItem, USER_HEAP_BASE, WORD_SIZE] at h₁ h₂
    omega
  obtain ⟨s', hs', -, -, hbits, -⟩ := id hclean
  refine ⟨hclean, s', hs', fun h => ((hbits 1 (by decide)).mp h).1 (by decide), (hbits 4096 (by decide)).mpr ⟨by decide, ?_⟩⟩
  exact twoMarked_isBitSet.mpr (.inl rfl)

/-- The last page of the heap: bytes after the bitmap are cleared. -/
theorem cleanup_last_page : ¬ ∀ (s : SentinelMap) (start size : Nat), HeapPages start size → CleansRange s start size := by
  intro h
  have hpages : HeapPages (USER_HEAP_BASE + USER_HEAP_SIZE - 4096) 4096 := ⟨by decide, by decide, by decide, by decide⟩
  obtain ⟨-, -, -, -, -, hbytes⟩ := h ⟨fun _ => 0, fun _ => 0#64, []⟩ _ _ hpages
  have hroom := (cleanup_bytes hpages).mp hbytes
  simp only [USER_HEAP_BASE, USER_HEAP_SIZE] at hroom
  omega

end SentinelMap
end DoubleTake
