import DoubleTake.Bitmap

/-! The single-bit operations and the backward search of the bitmap, in terms of which items are set. -/

namespace DoubleTake
namespace Bitmap

variable {b : Bitmap} {item k : Nat}

theorem on_eq (i : Nat) : on i = BitVec.twoPow 64 i := (BitVec.twoPow_eq 64 i).symm

theorem isBitSetOnWord_eq {w : BitVec 64} {i : Nat} (hi : i < 64) : isBitSetOnWord w i = w.getLsbD i := by
  have h := Bits.and_twoPow_ne_zero (w := w) hi
  rw [Bool.eq_iff_iff, ← h, isBitSetOnWord, on_eq, bne_iff_ne]

theorem isBitSet_eq (b : Bitmap) (item : Nat) : b.isBitSet item = (b (item / 64)).getLsbD (item % 64) :=
  isBitSetOnWord_eq (w := b (item / 64)) (Nat.mod_lt item (by decide))

/-- An item and the item of a word and a bit are the same when word and bit are. -/
theorem item_eq_iff {i j : Nat} : i = j ↔ i / 64 = j / 64 ∧ i % 64 = j % 64 := by omega

theorem checkSetBit_isBitSet : (b.checkSetBit item).2.isBitSet k = (k == item || b.isBitSet k) := by
  rw [isBitSet_eq, isBitSet_eq]
  by_cases hw : k / 64 = item / 64
  · have hlt : item % 64 < 64 := Nat.mod_lt _ (by omega)
    have hlt' : k % 64 < 64 := Nat.mod_lt _ (by omega)
    have hk : (k == item) = decide (item % 64 = k % 64) := by
      rw [Bool.eq_iff_iff, beq_iff_eq, decide_eq_true_eq, item_eq_iff]
      exact ⟨fun h => h.2.symm, fun h => ⟨hw, h.symm⟩⟩
    simp [checkSetBit, getIndexes, readWord, WORDBITS, hw, on_eq, BitVec.getLsbD_or, hlt, hk, Bool.or_comm]
  · have hk : (k == item) = false := by
      simp only [beq_eq_false_iff_ne, ne_eq]
      rintro rfl
      exact hw rfl
    simp [checkSetBit, getIndexes, WORDBITS, Function.update_of_ne hw, hk]

theorem clearBit_isBitSet : (b.clearBit item).isBitSet k = (k != item && b.isBitSet k) := by
  rw [isBitSet_eq, isBitSet_eq]
  by_cases hw : k / 64 = item / 64
  · have hlt : item % 64 < 64 := Nat.mod_lt _ (by omega)
    have hlt' : k % 64 < 64 := Nat.mod_lt _ (by omega)
    have hk : (k != item) = !decide (item % 64 = k % 64) := by
      rw [bne, Bool.not_eq_eq_eq_not, Bool.not_not, Bool.eq_iff_iff, beq_iff_eq, decide_eq_true_eq, item_eq_iff]
      exact ⟨fun h => h.2.symm, fun h => ⟨hw, h.symm⟩⟩
    simp [clearBit, getIndexes, readWord, WORDBITS, hw, off, on_eq, hlt', hk, Bool.and_comm, eq_comm]
  · have hk : (k != item) = true := by
      simp only [bne_iff_ne, ne_eq]
      rintro rfl
      exact hw rfl
    simp [clearBit, getIndexes, WORDBITS, Function.update_of_ne hw, hk]

/-- Clearing whole words from an item on leaves the items below it alone and sets none. -/
theorem clearBits_words {bits : Nat} (hi : item % 64 = 0) (hb : bits % 64 = 0) :
    ∃ b', b.clearBits item bits = some b' ∧ (∀ k < item, b'.isBitSet k = b.isBitSet k) ∧
      ∀ k, b'.isBitSet k = true → b.isBitSet k = true := by
  refine ⟨_, if_pos (show item % 64 = 0 ∧ (item + bits) % 64 = 0 by omega), fun k hk => ?_, fun k => ?_⟩
  · rw [isBitSet_eq, isBitSet_eq]
    rw [if_neg (by simp only [WORDBITS]; omega)]
  · rw [isBitSet_eq, isBitSet_eq]
    split
    · simp
    · exact id

/-- The words that `clearBits` clears are those of the bytes that its `memset` writes. -/
theorem clearBits_memset {bits : Nat} (hi : item % 64 = 0) (hb : bits % 64 = 0) :
    ∃ b', b.clearBits item bits = some b' ∧ ∀ w, b' w =
      if (clearedBytes item bits).1 ≤ w * 8 ∧ w * 8 < (clearedBytes item bits).1 + (clearedBytes item bits).2 then 0#64
      else b w := by
  refine ⟨_, if_pos (show item % 64 = 0 ∧ (item + bits) % 64 = 0 by omega), fun w => ?_⟩
  refine if_congr ?_ rfl rfl
  simp only [clearedBytes, getIndexes, WORDBITS, WORDSIZE]
  omega

/-- Eight words are cleared for each word of the range. -/
theorem clearBits_isBitSet {bits : Nat} (hi : item % 64 = 0) (hb : bits % 64 = 0) :
    ∃ b', b.clearBits item bits = some b' ∧
      ∀ k, b'.isBitSet k = true ↔ ¬ (item ≤ k ∧ k < item + 8 * bits) ∧ b.isBitSet k = true := by
  obtain ⟨b', hb', hwords⟩ := @clearBits_memset b item bits hi hb
  refine ⟨b', hb', fun k => ?_⟩
  have hrange : (clearedBytes item bits).1 ≤ k / 64 * 8 ∧
      k / 64 * 8 < (clearedBytes item bits).1 + (clearedBytes item bits).2 ↔ item ≤ k ∧ k < item + 8 * bits := by
    simp only [clearedBytes, getIndexes, WORDBITS, WORDSIZE]
    omega
  rw [isBitSet_eq, isBitSet_eq, hwords]
  by_cases hin : item ≤ k ∧ k < item + 8 * bits
  · rw [if_pos (hrange.mpr hin)]
    exact iff_of_false (by simp) fun h => h.1 hin
  · rw [if_neg fun h => hin (hrange.mp h)]
    exact (and_iff_right hin).symm

/-! ### The backward search -/

theorem getLsbIndex_spec {w : BitVec 64} (h : w ≠ 0#64) :
    getLsbIndex w < 64 ∧ w.getLsbD (getLsbIndex w) = true ∧ ∀ j < getLsbIndex w, w.getLsbD j = false := by
  obtain ⟨l, hl, hf, hbit, hmin⟩ := Bits.ffsl_spec h
  have : getLsbIndex w = l := by
    simp only [getLsbIndex, hf]
    omega
  rw [this]
  exact ⟨hl, hbit, hmin⟩

theorem getMsbIndex_spec {w : BitVec 64} (h : w ≠ 0#64) :
    (getMsbIndex w + 1) % 2 ^ 64 < 64 ∧ w.getLsbD ((getMsbIndex w + 1) % 2 ^ 64) = true ∧
      ∀ j, (getMsbIndex w + 1) % 2 ^ 64 < j → w.getLsbD j = false := by
  obtain ⟨m, hm, hf, hbit, hmax⟩ := Bits.clzl_spec h
  have : (getMsbIndex w + 1) % 2 ^ 64 = m := by
    simp only [getMsbIndex, hf, WORDBITS]
    omega
  rw [this]
  exact ⟨hm, hbit, hmax⟩

/-- The loop inside the word stops at the least significant bit, below which there is nothing to find. -/
theorem getLastBitInWord_eq {w : BitVec 64} (h : w ≠ 0#64) {n : Nat} (hn : n ≤ 64) :
    getLastBitInWord w (getLsbIndex w) n = Bits.lastSet (w.getLsbD ·) n := by
  obtain ⟨-, -, hmin⟩ := getLsbIndex_spec h
  induction n with
  | zero => rfl
  | succ n ih =>
    simp only [getLastBitInWord, Bits.lastSet, isBitSetOnWord_eq (w := w) (i := n) (by omega)]
    by_cases hl : getLsbIndex w < n + 1
    · rw [if_pos hl, ih (by omega)]
    · rw [if_neg hl]
      symm
      rw [show (if w.getLsbD n = true then some n else Bits.lastSet (w.getLsbD ·) n) =
        Bits.lastSet (w.getLsbD ·) (n + 1) from rfl, Bits.lastSet_eq_none]
      exact fun k hk => hmin k (by omega)

theorem getLastBitBelow_eq (b : Bitmap) (w : Nat) : getLastBitBelow b w = Bits.lastSet b.isBitSet (w * 64) := by
  induction w with
  | zero => rfl
  | succ w ih =>
    have hunfold : getLastBitBelow b (w + 1) = if b w ≠ 0#64 then
        some (getItemIndex w ((getMsbIndex (b w) + 1) % 2 ^ 64)) else getLastBitBelow b w := rfl
    rw [hunfold]
    by_cases hz : b w = 0#64
    · rw [if_neg (by simpa using hz), ih]
      cases hl : Bits.lastSet b.isBitSet (w * 64) with
      | none =>
        symm
        rw [Bits.lastSet_eq_none] at hl ⊢
        intro k hk
        by_cases hkw : k < w * 64
        · exact hl k hkw
        · rw [isBitSet_eq, show k / 64 = w by omega, hz]
          simp
      | some j =>
        symm
        rw [Bits.lastSet_eq_some] at hl ⊢
        refine ⟨by omega, hl.2.1, fun k h₁ h₂ => ?_⟩
        by_cases hkw : k < w * 64
        · exact hl.2.2 k h₁ hkw
        · rw [isBitSet_eq, show k / 64 = w by omega, hz]
          simp
    · rw [if_pos hz]
      obtain ⟨hlt, hbit, hmax⟩ := getMsbIndex_spec hz
      symm
      rw [Bits.lastSet_eq_some]
      generalize (getMsbIndex (b w) + 1) % 2 ^ 64 = m at hlt hbit hmax
      simp only [getItemIndex, WORDBITS]
      refine ⟨by omega, ?_, fun k h₁ h₂ => ?_⟩
      · rw [isBitSet_eq, show (w * 64 + m) / 64 = w by omega, show (w * 64 + m) % 64 = m by omega]
        exact hbit
      · rw [isBitSet_eq, show k / 64 = w by omega]
        exact hmax _ (by omega)

/-- `getLastBit` finds the greatest set item below the given one. -/
theorem getLastBit_eq (b : Bitmap) (item : Nat) : b.getLastBit item = Bits.lastSet b.isBitSet item := by
  have hsplit : item = item / 64 * 64 + item % 64 := by omega
  have hlt : item % 64 < 64 := Nat.mod_lt _ (by omega)
  -- Inside the word of the item the search is the one of the word itself.
  have hword : ∀ n ≤ 64, ∀ j, Bits.lastSet ((b (item / 64)).getLsbD ·) n = some j →
      Bits.lastSet b.isBitSet (item / 64 * 64 + n) = some (item / 64 * 64 + j) := by
    intro n hn j hj
    rw [Bits.lastSet_eq_some] at hj ⊢
    obtain ⟨h₁, h₂, h₃⟩ := hj
    refine ⟨by omega, ?_, fun k hk hkn => ?_⟩
    · rw [isBitSet_eq, show (item / 64 * 64 + j) / 64 = item / 64 by omega,
        show (item / 64 * 64 + j) % 64 = j by omega]
      exact h₂
    · rw [isBitSet_eq, show k / 64 = item / 64 by omega]
      exact h₃ _ (by omega) (by omega)
  have hnone : ∀ n ≤ 64, Bits.lastSet ((b (item / 64)).getLsbD ·) n = none →
      Bits.lastSet b.isBitSet (item / 64 * 64 + n) = Bits.lastSet b.isBitSet (item / 64 * 64) := by
    intro n hn hnone
    rw [Bits.lastSet_eq_none] at hnone
    induction n with
    | zero => rfl
    | succ n ih =>
      rw [show item / 64 * 64 + (n + 1) = item / 64 * 64 + n + 1 by omega, Bits.lastSet]
      have : b.isBitSet (item / 64 * 64 + n) = false := by
        rw [isBitSet_eq, show (item / 64 * 64 + n) / 64 = item / 64 by omega,
          show (item / 64 * 64 + n) % 64 = n by omega]
        exact hnone n (by omega)
      rw [this, if_neg (by simp)]
      exact ih (by omega) fun k hk => hnone k (by omega)
  by_cases hz : b (item / 64) = 0#64
  · have hunfold : b.getLastBit item = getLastBitBelow b (item / 64) := by
      simp [getLastBit, getIndexes, readWord, WORDBITS, hz]
    rw [hunfold, getLastBitBelow_eq]
    conv_rhs => rw [hsplit]
    rw [hnone _ (Nat.le_of_lt hlt)]
    rw [Bits.lastSet_eq_none]
    intro k _
    rw [hz]
    simp
  · have hfound := getLastBitInWord_eq hz (Nat.le_of_lt hlt)
    conv_rhs => rw [hsplit]
    cases hl : Bits.lastSet ((b (item / 64)).getLsbD ·) (item % 64) with
    | none =>
      have hunfold : b.getLastBit item = getLastBitBelow b (item / 64) := by
        simp [getLastBit, getIndexes, readWord, WORDBITS, hz, hfound, hl]
      rw [hunfold, getLastBitBelow_eq, hnone _ (Nat.le_of_lt hlt) hl]
    | some j =>
      have hunfold : b.getLastBit item = some (item / 64 * 64 + j) := by
        simp [getLastBit, getIndexes, getItemIndex, readWord, WORDBITS, hz, hfound, hl]
      rw [hunfold, hword _ (Nat.le_of_lt hlt) j hl]

/-! ### The range test -/

/-- An item of the range is set. -/
def AnySet (b : Bitmap) (item totalbits : Nat) : Prop := ∃ i, item ≤ i ∧ i < item + totalbits ∧ b.isBitSet i = true

/-- A bit of the word is set, from `lo` up to `hi`. -/
def AnyBit (w : BitVec 64) (lo hi : Nat) : Prop := ∃ j, lo ≤ j ∧ j < hi ∧ w.getLsbD j = true

/-- The most significant bit of the word is one that `hasBitSet` accepts in the last word: not the lowest one, and
    at most one above the end of the range. -/
def HighestBitNear (w : BitVec 64) (n : Nat) : Prop :=
  ∃ k, w.getLsbD k = true ∧ (∀ j, k < j → w.getLsbD j = false) ∧ 1 ≤ k ∧ k ≤ n + 1

theorem ne_zero_iff_anyBit {w : BitVec 64} : w ≠ 0#64 ↔ AnyBit w 0 64 := by
  rw [Bits.ne_zero_iff]
  constructor
  · rintro ⟨j, hj, hbit⟩
    exact ⟨j, Nat.zero_le j, hj, hbit⟩
  · rintro ⟨j, -, hj, hbit⟩
    exact ⟨j, hj, hbit⟩

theorem hasBitSetInWord_iff {w : BitVec 64} {lo hi : Nat} (hhi : hi ≤ 64) :
    hasBitSetInWord w lo hi = true ↔ AnyBit w lo hi := by
  rw [hasBitSetInWord, List.any_eq_true]
  constructor
  · rintro ⟨i, hi', hbit⟩
    rw [List.mem_range] at hi'
    rw [isBitSetOnWord_eq (by omega)] at hbit
    exact ⟨lo + i, by omega, by omega, hbit⟩
  · rintro ⟨j, hlo, hj, hbit⟩
    refine ⟨j - lo, List.mem_range.mpr (by omega), ?_⟩
    rw [isBitSetOnWord_eq (by omega), show lo + (j - lo) = j by omega]
    exact hbit

/-- The test of the first word: no bit below `n`, which a word without any bit passes too. -/
theorem le_getLsbIndex_iff {w : BitVec 64} {n : Nat} (hn : n < 64) : n ≤ getLsbIndex w ↔ ¬ AnyBit w 0 n := by
  by_cases hw : w = 0#64
  · subst hw
    have hempty : ¬ AnyBit 0#64 0 n := by
      rintro ⟨j, -, -, hbit⟩
      simp at hbit
    have hlsb : getLsbIndex 0#64 = 2 ^ 64 - 1 := by decide +kernel
    rw [hlsb]
    exact iff_of_true (by omega) hempty
  · obtain ⟨hlt, hbit, hmin⟩ := getLsbIndex_spec hw
    constructor
    · rintro hle ⟨j, -, hj, hj'⟩
      rw [hmin j (by omega)] at hj'
      cases hj'
    · intro hno
      by_contra hle
      exact hno ⟨_, Nat.zero_le _, by omega, hbit⟩

/-- The test of the last word. -/
theorem getMsbIndex_le_iff {w : BitVec 64} {n : Nat} (hn : n < 64) :
    w ≠ 0#64 ∧ getMsbIndex w ≤ n ↔ HighestBitNear w n := by
  constructor
  · rintro ⟨hw, hle⟩
    obtain ⟨hlt, hbit, hmax⟩ := getMsbIndex_spec hw
    exact ⟨_, hbit, hmax, by omega, by omega⟩
  · rintro ⟨k, hbit, hmax, hone, hk⟩
    have hk64 : k < 64 := BitVec.lt_of_getLsbD hbit
    have hw : w ≠ 0#64 := ne_zero_iff_anyBit.mpr ⟨k, Nat.zero_le k, hk64, hbit⟩
    obtain ⟨hlt, hbit', hmax'⟩ := getMsbIndex_spec hw
    have heq : (getMsbIndex w + 1) % 2 ^ 64 = k := by
      rcases Nat.lt_trichotomy k ((getMsbIndex w + 1) % 2 ^ 64) with h | h | h
      · rw [hmax _ h] at hbit'
        cases hbit'
      · exact h.symm
      · rw [hmax' _ h] at hbit
        cases hbit
    have : getMsbIndex w < 2 ^ 64 := Nat.mod_lt _ (by decide)
    exact ⟨hw, by omega⟩

/-- A range inside one word. -/
theorem anySet_word {totalbits : Nat} (hw : item / 64 = (item + totalbits) / 64) :
    AnySet b item totalbits ↔ AnyBit (b (item / 64)) (item % 64) ((item + totalbits) % 64) := by
  constructor
  · rintro ⟨i, hlo, hhi, hbit⟩
    rw [isBitSet_eq, show i / 64 = item / 64 by omega] at hbit
    exact ⟨i % 64, by omega, by omega, hbit⟩
  · rintro ⟨j, hlo, hhi, hbit⟩
    refine ⟨item / 64 * 64 + j, by omega, by omega, ?_⟩
    rw [isBitSet_eq, show (item / 64 * 64 + j) / 64 = item / 64 by omega, show (item / 64 * 64 + j) % 64 = j by omega]
    exact hbit

/-- The words of a range after its first one hold a bit of it. -/
def AnySetAfter (b : Bitmap) (item totalbits : Nat) : Prop :=
  (∃ w, item / 64 < w ∧ w < (item + totalbits) / 64 ∧ b w ≠ 0#64) ∨
    AnyBit (b ((item + totalbits) / 64)) 0 ((item + totalbits) % 64)

/-- A range over several words: the end of the first, whole words, and the beginning of the last. -/
theorem anySet_words {totalbits : Nat} (hw : item / 64 < (item + totalbits) / 64) :
    AnySet b item totalbits ↔ AnyBit (b (item / 64)) (item % 64) 64 ∨ AnySetAfter b item totalbits := by
  constructor
  · rintro ⟨i, hlo, hhi, hbit⟩
    rw [isBitSet_eq] at hbit
    by_cases hfirst : i / 64 = item / 64
    · rw [hfirst] at hbit
      exact .inl ⟨i % 64, by omega, by omega, hbit⟩
    · by_cases hlast : i / 64 = (item + totalbits) / 64
      · rw [hlast] at hbit
        exact .inr (.inr ⟨i % 64, by omega, by omega, hbit⟩)
      · have hne : b (i / 64) ≠ 0#64 := ne_zero_iff_anyBit.mpr ⟨i % 64, by omega, by omega, hbit⟩
        exact .inr (.inl ⟨i / 64, by omega, by omega, hne⟩)
  · have hitem : ∀ w j, j < 64 → (b w).getLsbD j = true → b.isBitSet (w * 64 + j) = true := by
      intro w j hj hbit
      rw [isBitSet_eq, show (w * 64 + j) / 64 = w by omega, show (w * 64 + j) % 64 = j by omega]
      exact hbit
    rintro (⟨j, hlo, hhi, hbit⟩ | ⟨w, hlo, hhi, hne⟩ | ⟨j, -, hhi, hbit⟩)
    · exact ⟨_, by omega, by omega, hitem _ j hhi hbit⟩
    · obtain ⟨j, -, hj, hbit⟩ := ne_zero_iff_anyBit.mp hne
      exact ⟨_, by omega, by omega, hitem _ j hj hbit⟩
    · exact ⟨_, by omega, by omega, hitem _ j (by omega) hbit⟩

/-- `hasBitSet` ends, and says whether an item of the range is set. -/
def DecidesRange (b : Bitmap) (item totalbits : Nat) : Prop :=
  ∃ r, b.hasBitSet item totalbits = some r ∧ (r = true ↔ AnySet b item totalbits)

/-- What `hasBitSet` needs for the right answer. A range inside one word is searched bit by bit. Else the first word is
    taken for a hit when it has no bit below the range, even when it has none at all; a bit there hides its other ones.
    Of the words between only the one after the first is looked at, and of the last one only its most significant bit. -/
def RangeCovered (b : Bitmap) (item totalbits : Nat) : Prop :=
  let firstWord := b (item / 64)
  let lastWordIndex := (item + totalbits) / 64
  let lastWord := b lastWordIndex
  item / 64 = lastWordIndex ∨
    firstWord = 0#64 ∧ AnySetAfter b item totalbits ∨
    firstWord ≠ 0#64 ∧ ¬ AnyBit firstWord 0 (item % 64) ∨
    AnyBit firstWord 0 (item % 64) ∧ item / 64 + 1 < lastWordIndex ∧ b (item / 64 + 1) ≠ 0#64 ∨
    AnyBit firstWord 0 (item % 64) ∧ item / 64 + 1 = lastWordIndex ∧
      (HighestBitNear lastWord ((item + totalbits) % 64) ↔
        AnyBit firstWord (item % 64) 64 ∨ AnyBit lastWord 0 ((item + totalbits) % 64))

theorem hasBitSet_eq (b : Bitmap) (item totalbits : Nat) : b.hasBitSet item totalbits =
    if item / 64 = (item + totalbits) / 64 then
      some (hasBitSetInWord (b (item / 64)) (item % 64) ((item + totalbits) % 64))
    else if getLsbIndex (b (item / 64)) ≥ item % 64 then some true
    else if item / 64 + 1 < (item + totalbits) / 64 then
      if b (item / 64 + 1) ≠ 0#64 then some true else none
    else some (decide (b ((item + totalbits) / 64) ≠ 0#64 ∧ getMsbIndex (b ((item + totalbits) / 64)) ≤ (item + totalbits) % 64)) :=
  rfl

theorem hasBitSet_word {totalbits : Nat} (hw : item / 64 = (item + totalbits) / 64) :
    b.hasBitSet item totalbits = some (hasBitSetInWord (b (item / 64)) (item % 64) ((item + totalbits) % 64)) := by
  rw [hasBitSet_eq, if_pos hw]

/-- The first word decides when it has no bit below the range. -/
theorem hasBitSet_first {totalbits : Nat} (hw : item / 64 < (item + totalbits) / 64)
    (hlow : ¬ AnyBit (b (item / 64)) 0 (item % 64)) : b.hasBitSet item totalbits = some true := by
  rw [hasBitSet_eq, if_neg (by omega), if_pos ((le_getLsbIndex_iff (Nat.mod_lt _ (by decide))).mpr hlow)]

/-- The loop over the words between: it ends when the first of them has a bit set. -/
theorem hasBitSet_middle {totalbits : Nat} (hw : item / 64 + 1 < (item + totalbits) / 64)
    (hlow : AnyBit (b (item / 64)) 0 (item % 64)) :
    b.hasBitSet item totalbits = if b (item / 64 + 1) ≠ 0#64 then some true else none := by
  have hlsb : ¬ getLsbIndex (b (item / 64)) ≥ item % 64 := by
    rw [ge_iff_le, le_getLsbIndex_iff (Nat.mod_lt _ (by decide))]
    exact not_not.mpr hlow
  rw [hasBitSet_eq, if_neg (by omega), if_neg hlsb, if_pos hw]

theorem hasBitSet_last {totalbits : Nat} (hw : item / 64 + 1 = (item + totalbits) / 64)
    (hlow : AnyBit (b (item / 64)) 0 (item % 64)) : ∃ r, b.hasBitSet item totalbits = some r ∧
      (r = true ↔ HighestBitNear (b ((item + totalbits) / 64)) ((item + totalbits) % 64)) := by
  have hlsb : ¬ getLsbIndex (b (item / 64)) ≥ item % 64 := by
    rw [ge_iff_le, le_getLsbIndex_iff (Nat.mod_lt _ (by decide))]
    exact not_not.mpr hlow
  rw [hasBitSet_eq, if_neg (by omega), if_neg hlsb, if_neg (by omega)]
  exact ⟨_, rfl, by rw [decide_eq_true_eq, getMsbIndex_le_iff (Nat.mod_lt _ (by decide))]⟩

/-! The range test on each kind of range. -/

theorem decidesRange_word {totalbits : Nat} (hw : item / 64 = (item + totalbits) / 64) : DecidesRange b item totalbits := by
  refine ⟨_, hasBitSet_word hw, ?_⟩
  rw [hasBitSetInWord_iff (Nat.le_of_lt (Nat.mod_lt _ (by decide))), anySet_word hw]

/-- With no bit below the range the first word is taken for a hit: rightly, when it holds a bit or a later word does. -/
theorem decidesRange_first {totalbits : Nat} (hw : item / 64 < (item + totalbits) / 64)
    (hlow : ¬ AnyBit (b (item / 64)) 0 (item % 64)) :
    DecidesRange b item totalbits ↔ b (item / 64) ≠ 0#64 ∨ AnySetAfter b item totalbits := by
  have hfirst : AnyBit (b (item / 64)) (item % 64) 64 ↔ b (item / 64) ≠ 0#64 := by
    rw [ne_zero_iff_anyBit]
    constructor
    · rintro ⟨j, -, hj, hbit⟩
      exact ⟨j, Nat.zero_le j, hj, hbit⟩
    · rintro ⟨j, hlo, hj, hbit⟩
      refine ⟨j, ?_, hj, hbit⟩
      by_contra hj'
      exact hlow ⟨j, hlo, by omega, hbit⟩
  rw [DecidesRange, hasBitSet_first hw hlow, anySet_words hw, hfirst]
  simp only [Option.some.injEq, exists_eq_left', true_iff]

/-- Of the words between only the first one can end the loop, and what it says then is right. -/
theorem decidesRange_middle {totalbits : Nat} (hw : item / 64 + 1 < (item + totalbits) / 64)
    (hlow : AnyBit (b (item / 64)) 0 (item % 64)) : DecidesRange b item totalbits ↔ b (item / 64 + 1) ≠ 0#64 := by
  rw [DecidesRange, hasBitSet_middle hw hlow, anySet_words (by omega)]
  by_cases hword : b (item / 64 + 1) = 0#64
  · rw [if_neg (not_not.mpr hword)]
    refine iff_of_false ?_ (not_not.mpr hword)
    rintro ⟨r, hr, -⟩
    cases hr
  · rw [if_pos hword]
    exact iff_of_true ⟨true, rfl, iff_of_true rfl (.inr (.inl ⟨_, by omega, hw, hword⟩))⟩ hword

/-- Of two words the last one is judged by its most significant bit. -/
theorem decidesRange_last {totalbits : Nat} (hw : item / 64 + 1 = (item + totalbits) / 64)
    (hlow : AnyBit (b (item / 64)) 0 (item % 64)) : DecidesRange b item totalbits ↔
      (HighestBitNear (b ((item + totalbits) / 64)) ((item + totalbits) % 64) ↔
        AnyBit (b (item / 64)) (item % 64) 64 ∨ AnyBit (b ((item + totalbits) / 64)) 0 ((item + totalbits) % 64)) := by
  obtain ⟨r, hr, hval⟩ := hasBitSet_last hw hlow
  have hafter : AnySetAfter b item totalbits ↔ AnyBit (b ((item + totalbits) / 64)) 0 ((item + totalbits) % 64) := by
    refine or_iff_right ?_
    rintro ⟨w, h₁, h₂, -⟩
    omega
  rw [DecidesRange, hr, anySet_words (by omega), hafter, ← hval]
  simp only [Option.some.injEq, exists_eq_left']

/-- The range test is right exactly on the ranges that its shortcuts cover. -/
theorem hasBitSet_decides_iff (b : Bitmap) (item totalbits : Nat) :
    DecidesRange b item totalbits ↔ RangeCovered b item totalbits := by
  unfold RangeCovered
  dsimp only
  by_cases hone : item / 64 = (item + totalbits) / 64
  · exact iff_of_true (decidesRange_word hone) (.inl hone)
  have hlt : item / 64 < (item + totalbits) / 64 := by omega
  by_cases hlow : AnyBit (b (item / 64)) 0 (item % 64)
  · have hne : b (item / 64) ≠ 0#64 := by
      obtain ⟨j, hlo, hj, hbit⟩ := hlow
      exact ne_zero_iff_anyBit.mpr ⟨j, hlo, by omega, hbit⟩
    by_cases hnext : item / 64 + 1 = (item + totalbits) / 64
    · have hmid : ¬ item / 64 + 1 < (item + totalbits) / 64 := by omega
      rw [decidesRange_last hnext hlow]
      simp only [hone, hne, hlow, hmid, eq_true hnext, not_true, false_and, and_false, true_and, false_or]
    · have hmid : item / 64 + 1 < (item + totalbits) / 64 := by omega
      rw [decidesRange_middle hmid hlow]
      simp only [hone, hne, hlow, hmid, hnext, not_true, false_and, and_false, true_and, false_or, or_false]
  · rw [decidesRange_first hlt hlow]
    by_cases hzero : b (item / 64) = 0#64
    · rw [hzero] at hlow
      simp only [hone, hlow, hzero, ne_eq, not_true, false_and, true_and, false_or, or_false]
    · simp only [hone, hlow, hzero, ne_eq, not_false_eq_true, true_or, false_and, and_true, or_true]

/-- A range of one bit, the last one of its word, in a bitmap without any bit set: `hasBitSet` says that one is. -/
theorem hasBitSet_empty : ¬ ∀ (b : Bitmap) (elements item totalbits : Nat), item + totalbits ≤ elements →
    DecidesRange b item totalbits := by
  intro h
  obtain ⟨r, hr, hiff⟩ := h (fun _ => 0#64) 128 63 1 (by decide)
  have htrue : Bitmap.hasBitSet (fun _ => 0#64) 63 1 = some true := by decide +kernel
  rw [htrue, Option.some.injEq] at hr
  obtain ⟨i, -, -, hbit⟩ := hiff.mp hr.symm
  rw [isBitSet_eq] at hbit
  simp at hbit

end Bitmap
end DoubleTake
