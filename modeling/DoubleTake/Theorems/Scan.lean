import DoubleTake.Lib.Except
import DoubleTake.Theorems.Sentinels

/-! The scan of an epoch end, word by word of the bitmap and bit by bit: it returns true exactly when a watchpoint was
    set before or some marked word of the heap is reported. -/

namespace DoubleTake
namespace SentinelMap

variable {s : SentinelMap} {w n k : Nat}

/-- The item is marked and its word holds neither of the preset sentinels. -/
def Suspect (s : SentinelMap) (item : Nat) : Prop :=
  s.bitmap.isBitSet item = true ∧ s.isPreset (getHeapAddressFromItem item) = false

/-- The scan takes the word of the item for one that may hold a part of an object. The flag is raised by a suspect
    item with a marked successor and stays raised for the rest of the bitmap word; at the last bit it is taken anew
    from the first bit of the next word. -/
def NonAligned (s : SentinelMap) (item : Nat) : Prop :=
  if item % 64 = 63 then s.bitmap.isBitSet (item + 1) = true
  else ∃ j ≤ item, j / 64 = item / 64 ∧ s.Suspect j ∧ s.bitmap.isBitSet (j + 1) = true

/-- The object that the backward search from the item finds is overflowed. -/
def FoundOverflowed (s : SentinelMap) (item : Nat) : Prop :=
  ∃ objectStart, s.findObjectStartAddr (getHeapAddressFromItem item) = some objectStart ∧
    s.overflowed objectStart (ObjectHeader.getSize s.mem objectStart) (ObjectHeader.getObjectSize s.mem objectStart) = true

/-- The scan adds a watchpoint when it comes to the item. -/
def Reported (s : SentinelMap) (item : Nat) : Prop :=
  s.Suspect item ∧ (s.NonAligned item → s.isCorruptedSentinel (getHeapAddressFromItem item) = true) ∧
    s.FoundOverflowed item

/-- The scan checks an object when it comes to the item. -/
def Examined (s : SentinelMap) (item : Nat) : Prop :=
  s.Suspect item ∧ (s.NonAligned item → s.isCorruptedSentinel (getHeapAddressFromItem item) = true) ∧
    ∃ objectStart, s.findObjectStartAddr (getHeapAddressFromItem item) = some objectStart

/-- The item is reported, and no object is checked for a later item of its bitmap word. -/
def ReportedLast (s : SentinelMap) (item : Nat) : Prop :=
  s.Reported item ∧ ∀ j, item < j → j / 64 = item / 64 → ¬ s.Examined j

theorem Reported.examined {item : Nat} (h : s.Reported item) : s.Examined item := by
  obtain ⟨hs, hbad, st, hst, -⟩ := h
  exact ⟨hs, hbad, st, hst⟩

/-! ### Only the watchpoints change -/

theorem overflowed_congr {s' : SentinelMap} (h : s'.mem = s.mem) {ptr bs sz : Nat} :
    s'.overflowed ptr bs sz = s.overflowed ptr bs sz := by
  have hc : ∀ a, s'.checkSentinel a = s.checkSentinel a := fun a => by simp only [checkSentinel, word, h]
  have hm : ∀ p m, s'.checkMagicBytes p m = s.checkMagicBytes p m := fun p m => by simp only [checkMagicBytes, h]
  unfold overflowed checkObjectOverflow
  simp only [hc, hm]
  split <;> rfl

theorem findObjectStartFrom_congr {s' : SentinelMap} (hm : s'.mem = s.mem) (hb : s'.bitmap = s.bitmap) (fuel item : Nat) :
    s'.findObjectStartFrom fuel item = s.findObjectStartFrom fuel item := by
  induction fuel generalizing item with
  | zero => rfl
  | succ fuel ih =>
    simp only [findObjectStartFrom, word, hm, hb, ih]
    rfl

/-- The part of the map that the scan reads. -/
def sameWords (s s' : SentinelMap) : Prop := s'.mem = s.mem ∧ s'.bitmap = s.bitmap

theorem eq_of_words {s' : SentinelMap} (h : s.sameWords s') (hwp : s'.wp = s.wp) : s' = s := by
  cases s
  cases s'
  cases h.1
  cases h.2
  cases hwp
  rfl

theorem address_eq (w i : Nat) : getHeapAddressFromWordIndex w + i * WORD_SIZE = getHeapAddressFromItem (w * 64 + i) := by
  simp only [getHeapAddressFromWordIndex, getHeapAddressFromItem, WORD_SIZE, WORDBITS]
  omega

/-! ### One bitmap word -/

/-- The last object that is checked for the first `n` bits of the bitmap word `w` is overflowed. -/
def LastReported (s : SentinelMap) (w n : Nat) : Prop :=
  ∃ i < n, s.Reported (w * 64 + i) ∧ ∀ j < n, i < j → ¬ s.Examined (w * 64 + j)

theorem lastReported_skip (h : ¬ s.Examined (w * 64 + n)) : LastReported s w (n + 1) ↔ LastReported s w n := by
  constructor
  · rintro ⟨i, hi, hr, hlast⟩
    have hin : i ≠ n := fun hin => h (hin ▸ hr.examined)
    exact ⟨i, by omega, hr, fun j hj => hlast j (by omega)⟩
  · rintro ⟨i, hi, hr, hlast⟩
    refine ⟨i, by omega, hr, fun j hj hij => ?_⟩
    rcases Nat.lt_succ_iff_lt_or_eq.mp hj with hj | rfl
    · exact hlast j hj hij
    · exact h

theorem lastReported_examined (h : s.Examined (w * 64 + n)) : LastReported s w (n + 1) ↔ s.Reported (w * 64 + n) := by
  constructor
  · rintro ⟨i, hi, hr, hlast⟩
    rcases Nat.lt_succ_iff_lt_or_eq.mp hi with hi | rfl
    · exact absurd h (hlast n (by omega) hi)
    · exact hr
  · intro hr
    exact ⟨n, by omega, hr, fun j hj hij => by omega⟩

/-- What holds after the first `n` bits of the bitmap word `w`. -/
structure Scanned (s : SentinelMap) (w n : Nat) (c : Scan) : Prop where
  words : s.sameWords c.map
  found : c.map.wp ≠ [] ↔ s.wp ≠ [] ∨ ∃ i < n, s.Reported (w * 64 + i)
  corrupted : c.hasCorrupted = true → c.map.wp ≠ []
  last : c.hasCorrupted = true ↔ LastReported s w n
  clean : (∀ i < n, ¬ s.Reported (w * 64 + i)) → c.map.wp = s.wp
  flag : n ≤ 63 → (c.checkNonAligned = true ↔
    ∃ i < n, s.Suspect (w * 64 + i) ∧ s.bitmap.isBitSet (w * 64 + i + 1) = true)

theorem isBitSetOnWord_readWord (b : Bitmap) {w i : Nat} (hi : i < 64) :
    Bitmap.isBitSetOnWord (b.readWord w) i = b.isBitSet (w * 64 + i) := by
  rw [Bitmap.isBitSetOnWord_eq hi, Bitmap.isBitSet_eq, show (w * 64 + i) / 64 = w by omega,
    show (w * 64 + i) % 64 = i by omega]
  rfl

/-- A bit that is not suspect changes nothing. -/
theorem Scanned.skip {c : Scan} (h : Scanned s w n c) (hs : ¬ s.Suspect (w * 64 + n)) : Scanned s w (n + 1) c := by
  have hr : ¬ s.Reported (w * 64 + n) := fun h => hs h.1
  refine ⟨h.words, ?_, h.corrupted, h.last.trans (lastReported_skip fun h => hs h.1).symm, fun hno => h.clean fun i hi => hno i (by omega), fun hn => ?_⟩
  · rw [h.found]
    refine or_congr Iff.rfl ⟨?_, ?_⟩
    · rintro ⟨i, hi, hri⟩
      exact ⟨i, by omega, hri⟩
    · rintro ⟨i, hi, hri⟩
      have : i ≠ n := fun hin => hr (hin ▸ hri)
      exact ⟨i, by omega, hri⟩
  · rw [h.flag (by omega)]
    constructor
    · rintro ⟨i, hi, hri⟩
      exact ⟨i, by omega, hri⟩
    · rintro ⟨i, hi, hri⟩
      have : i ≠ n := fun hin => hs (hin ▸ hri.1)
      exact ⟨i, by omega, hri⟩

/-- The flag that the loop computes at a suspect bit is `NonAligned`. -/
theorem Scanned.flag_eq {c : Scan} (h : Scanned s w n c) (hn : n < 64) (hs : s.Suspect (w * 64 + n)) {b : Bool}
    (hb : b = if n + 1 < WORDBITS then c.checkNonAligned || Bitmap.isBitSetOnWord (s.bitmap.readWord w) (n + 1)
      else Bitmap.isBitSetOnWord (s.bitmap.readWord (w + 1)) 0) :
    (b = true ↔ s.NonAligned (w * 64 + n)) ∧ (n + 1 ≤ 63 → (b = true ↔
      ∃ i < n + 1, s.Suspect (w * 64 + i) ∧ s.bitmap.isBitSet (w * 64 + i + 1) = true)) := by
  simp only [WORDBITS] at hb
  unfold NonAligned
  by_cases h63 : n + 1 < 64
  · rw [if_pos h63, isBitSetOnWord_readWord _ h63] at hb
    rw [if_neg (by omega)]
    have hex : b = true ↔ ∃ i < n + 1, s.Suspect (w * 64 + i) ∧ s.bitmap.isBitSet (w * 64 + i + 1) = true := by
      rw [hb, Bool.or_eq_true, h.flag (by omega)]
      constructor
      · rintro (⟨i, hi, hri⟩ | hset)
        · exact ⟨i, by omega, hri⟩
        · exact ⟨n, by omega, hs, hset⟩
      · rintro ⟨i, hi, hri⟩
        by_cases hin : i = n
        · exact .inr (hin ▸ hri.2)
        · exact .inl ⟨i, by omega, hri⟩
    refine ⟨hex.trans ⟨?_, ?_⟩, fun _ => hex⟩
    · rintro ⟨i, hi, hsi, hset⟩
      exact ⟨w * 64 + i, by omega, by omega, hsi, hset⟩
    · rintro ⟨j, hj, hjw, hsj, hset⟩
      refine ⟨j - w * 64, by omega, ?_⟩
      rw [show w * 64 + (j - w * 64) = j by omega]
      exact ⟨hsj, hset⟩
  · rw [if_neg h63, isBitSetOnWord_readWord _ (by omega)] at hb
    rw [if_pos (by omega), hb, show (w + 1) * 64 + 0 = w * 64 + n + 1 by omega]
    exact ⟨Iff.rfl, fun hle => absurd hle (by omega)⟩

/-- A suspect bit that is not reported only moves the flag. -/
theorem Scanned.move {c : Scan} (h : Scanned s w n c) (hr : ¬ s.Reported (w * 64 + n)) {flag corrupted : Bool}
    (hf : n + 1 ≤ 63 → (flag = true ↔ ∃ i < n + 1, s.Suspect (w * 64 + i) ∧ s.bitmap.isBitSet (w * 64 + i + 1) = true))
    (hc : corrupted = true → c.map.wp ≠ []) (hl : corrupted = true ↔ LastReported s w (n + 1)) :
    Scanned s w (n + 1) ⟨flag, corrupted, c.map⟩ := by
  refine ⟨h.words, ?_, hc, hl, fun hno => h.clean fun i hi => hno i (by omega), hf⟩
  rw [h.found]
  refine or_congr Iff.rfl ⟨?_, ?_⟩
  · rintro ⟨i, hi, hri⟩
    exact ⟨i, by omega, hri⟩
  · rintro ⟨i, hi, hri⟩
    have : i ≠ n := fun hin => hr (hin ▸ hri)
    exact ⟨i, by omega, hri⟩

theorem Scanned.step {c : Scan} (h : Scanned s w n c) (hn : n < 64) :
    Scanned s w (n + 1) (checkIntegrityOnBit (s.bitmap.readWord w) w c n) := by
  obtain ⟨hmem, hbit⟩ := h.words
  have hpre : c.map.isPreset (getHeapAddressFromItem (w * 64 + n)) = s.isPreset (getHeapAddressFromItem (w * 64 + n)) := by
    simp only [isPreset, word, hmem]
  have hcor : c.map.isCorruptedSentinel (getHeapAddressFromItem (w * 64 + n)) =
      s.isCorruptedSentinel (getHeapAddressFromItem (w * 64 + n)) := by
    simp only [isCorruptedSentinel, hmem]
  have hfind : c.map.findObjectStartAddr (getHeapAddressFromItem (w * 64 + n)) =
      s.findObjectStartAddr (getHeapAddressFromItem (w * 64 + n)) :=
    findObjectStartFrom_congr hmem hbit _ _
  simp only [checkIntegrityOnBit, address_eq, isBitSetOnWord_readWord _ hn, hpre, hcor, hfind, hmem, hbit]
  by_cases hs : s.Suspect (w * 64 + n)
  swap
  · rw [if_neg (by simpa [Suspect] using hs)]
    exact h.skip hs
  rw [if_pos ⟨hs.1, by simp [hs.2]⟩]
  generalize hb : (if n + 1 < WORDBITS then c.checkNonAligned || Bitmap.isBitSetOnWord (s.bitmap.readWord w) (n + 1)
    else Bitmap.isBitSetOnWord (s.bitmap.readWord (w + 1)) 0) = b
  obtain ⟨hna, hflag⟩ := h.flag_eq hn hs hb.symm
  by_cases hbad : (if b = true then s.isCorruptedSentinel (getHeapAddressFromItem (w * 64 + n)) else true) = true
  swap
  -- The non-aligned test accepts the word.
  · have hnot : ¬ s.Examined (w * 64 + n) := by
      intro he
      refine hbad ?_
      by_cases hbt : b = true
      · rw [if_pos hbt]
        exact he.2.1 (hna.mp hbt)
      · rw [if_neg hbt]
    rw [if_neg hbad]
    exact h.move (fun hr => hnot hr.examined) hflag h.corrupted (h.last.trans (lastReported_skip hnot).symm)
  rw [if_pos hbad]
  cases hfo : s.findObjectStartAddr (getHeapAddressFromItem (w * 64 + n)) with
  | none =>
    have hnot : ¬ s.Examined (w * 64 + n) := by
      rintro ⟨-, -, st, hst⟩
      rw [hfo] at hst
      cases hst
    exact h.move (fun hr => hnot hr.examined) hflag h.corrupted (h.last.trans (lastReported_skip hnot).symm)
  | some st =>
    dsimp only
    have hexam : s.Examined (w * 64 + n) := by
      refine ⟨hs, fun hn' => ?_, st, hfo⟩
      rw [if_pos (hna.mpr hn')] at hbad
      exact hbad
    rcases @checkObjectOverflow_keep c.map st (ObjectHeader.getSize s.mem st)
      (ObjectHeader.getObjectSize s.mem st) with ⟨hov, heq⟩ | ⟨hov, wp, hwp, heq⟩
    · have hnot : ¬ s.Reported (w * 64 + n) := by
        rintro ⟨-, -, st', hst, hov'⟩
        rw [hfo, Option.some.injEq] at hst
        rw [← hst, ← overflowed_congr hmem, hov] at hov'
        cases hov'
      rw [heq]
      refine h.move hnot hflag (fun hf => by cases hf) ?_
      rw [lastReported_examined hexam]
      exact ⟨by rintro ⟨⟩, fun hr => absurd hr hnot⟩
    · rw [heq]
      rw [overflowed_congr hmem] at hov
      have hrep : s.Reported (w * 64 + n) := ⟨hexam.1, hexam.2.1, st, hfo, hov⟩
      exact ⟨⟨hmem, hbit⟩, ⟨fun _ => .inr ⟨n, by omega, hrep⟩, fun _ => hwp⟩, fun _ => hwp,
        iff_of_true rfl ((lastReported_examined hexam).mpr hrep), fun hno => absurd hrep (hno n (by omega)), hflag⟩

theorem scanned_bits (s : SentinelMap) (w : Nat) {n : Nat} (hn : n ≤ 64) :
    Scanned s w n ((List.range n).foldl (checkIntegrityOnBit (s.bitmap.readWord w) w) ⟨false, false, s⟩) := by
  induction n with
  | zero => exact ⟨⟨rfl, rfl⟩, by simp, by simp, by simp [LastReported], fun _ => rfl, by simp⟩
  | succ n ih =>
    rw [List.range_succ, List.foldl_append]
    exact (ih (by omega)).step (by omega)

/-! ### All bitmap words -/

theorem Suspect.congr {s' : SentinelMap} (h : s.sameWords s') {item : Nat} :
    (s'.Suspect item ↔ s.Suspect item) ∧ (s'.NonAligned item ↔ s.NonAligned item) := by
  obtain ⟨hmem, hbit⟩ := h
  have hsus : ∀ j, s'.Suspect j ↔ s.Suspect j := fun j => by simp only [Suspect, isPreset, word, hmem, hbit]
  exact ⟨hsus item, by simp only [NonAligned, hsus, hbit]⟩

theorem Examined.congr {s' : SentinelMap} (h : s.sameWords s') {item : Nat} : s'.Examined item ↔ s.Examined item := by
  obtain ⟨hsus, hna⟩ := @Suspect.congr _ _ h item
  obtain ⟨hmem, hbit⟩ := h
  unfold Examined
  rw [hsus, hna]
  simp only [isCorruptedSentinel, findObjectStartAddr, findObjectStartFrom_congr hmem hbit, hmem]

theorem Reported.congr {s' : SentinelMap} (h : s.sameWords s') {item : Nat} : s'.Reported item ↔ s.Reported item := by
  obtain ⟨hsus, hna⟩ := @Suspect.congr _ _ h item
  obtain ⟨hmem, hbit⟩ := h
  have hfound : s'.FoundOverflowed item ↔ s.FoundOverflowed item := by
    simp only [FoundOverflowed, findObjectStartAddr, findObjectStartFrom_congr hmem hbit, overflowed_congr hmem, hmem]
  unfold Reported
  rw [hsus, hna, hfound]
  simp only [isCorruptedSentinel, hmem]

theorem exists_lt_word {P : Nat → Prop} :
    (∃ item < (n + 1) * 64, P item) ↔ (∃ item < n * 64, P item) ∨ ∃ i < 64, P (n * 64 + i) := by
  constructor
  · rintro ⟨item, hlt, hr⟩
    by_cases hin : item < n * 64
    · exact .inl ⟨item, hin, hr⟩
    · refine .inr ⟨item - n * 64, by omega, ?_⟩
      rwa [show n * 64 + (item - n * 64) = item by omega]
  · rintro (⟨item, hlt, hr⟩ | ⟨i, hi, hr⟩)
    · exact ⟨item, by omega, hr⟩
    · exact ⟨n * 64 + i, by omega, hr⟩

/-- The last object that is checked for the whole bitmap word. -/
theorem lastReported_word : LastReported s w 64 ↔ ∃ i < 64, s.ReportedLast (w * 64 + i) := by
  refine exists_congr fun i => and_congr_right fun hi => and_congr_right fun _ => ⟨fun h j hj hw => ?_, fun h j hj hij => ?_⟩
  · have hlast := h (j - w * 64) (by omega) (by omega)
    rwa [show w * 64 + (j - w * 64) = j by omega] at hlast
  · exact h (w * 64 + j) (by omega) (by omega)

/-- What holds after the first `n` bitmap words. -/
structure ScannedWords (s : SentinelMap) (n : Nat) (c : Bool × SentinelMap) : Prop where
  words : s.sameWords c.2
  found : c.2.wp ≠ [] ↔ s.wp ≠ [] ∨ ∃ item < n * 64, s.Reported item
  corrupted : c.1 = true → c.2.wp ≠ []
  last : c.1 = true ↔ ∃ item < n * 64, s.ReportedLast item
  clean : (∀ item < n * 64, ¬ s.Reported item) → c.2.wp = s.wp

theorem ScannedWords.step {c : Bool × SentinelMap} (h : ScannedWords s n c) :
    ScannedWords s (n + 1) (checkIntegrityOnIndex c n) := by
  obtain ⟨hmem, hbit⟩ := h.words
  have hunfold : checkIntegrityOnIndex c n = if c.2.bitmap n ≠ 0#64 then
      (c.1 || (c.2.checkIntegrityOnBMW (c.2.bitmap n) n).1, (c.2.checkIntegrityOnBMW (c.2.bitmap n) n).2) else c := rfl
  rw [hunfold]
  by_cases hz : c.2.bitmap n = 0#64
  -- A word without a set bit is passed over, and it has nothing to report.
  · have hnone : ¬ ∃ i < 64, s.Reported (n * 64 + i) := by
      rintro ⟨i, hi, ⟨⟨hset, -⟩, -⟩⟩
      rw [Bitmap.isBitSet_eq, show (n * 64 + i) / 64 = n by omega, ← hbit, hz] at hset
      simp at hset
    rw [if_neg (by simpa using hz)]
    refine ⟨h.words, ?_, h.corrupted, ?_, fun hno => h.clean fun item hlt => hno item (by omega)⟩
    · rw [h.found, exists_lt_word]
      simp only [hnone, or_false]
    · have hlast : ¬ ∃ i < 64, s.ReportedLast (n * 64 + i) := fun ⟨i, hi, hr⟩ => hnone ⟨i, hi, hr.1⟩
      rw [h.last, exists_lt_word]
      simp only [hlast, or_false]
  · rw [if_pos hz]
    have hb := scanned_bits c.2 n (le_refl 64)
    have hrep : ∀ i, c.2.Reported (n * 64 + i) ↔ s.Reported (n * 64 + i) := fun i => Reported.congr h.words
    refine ⟨⟨hb.words.1.trans hmem, hb.words.2.trans hbit⟩, ?_, ?_, ?_, fun hno => ?_⟩
    · refine hb.found.trans ?_
      rw [h.found, exists_lt_word, or_assoc]
      simp only [hrep]
    · intro hor
      rcases Bool.or_eq_true _ _ ▸ hor with hc | hc
      · exact hb.found.mpr (.inl (h.corrupted hc))
      · exact hb.corrupted hc
    · have hlast : (c.2.checkIntegrityOnBMW (c.2.bitmap n) n).1 = true ↔ LastReported s n 64 := by
        refine hb.last.trans ?_
        unfold LastReported
        simp only [hrep, fun j => @Examined.congr _ _ h.words (n * 64 + j)]
      rw [Bool.or_eq_true, h.last, hlast, lastReported_word, exists_lt_word]
    · refine (hb.clean fun i hi => ?_).trans (h.clean fun item hlt => hno item (by omega))
      rw [hrep]
      exact hno _ (by omega)

theorem scanned_words (s : SentinelMap) (n : Nat) :
    ScannedWords s n ((List.range n).foldl checkIntegrityOnIndex (false, s)) := by
  induction n with
  | zero => exact ⟨⟨rfl, rfl⟩, by simp, by simp, by simp, fun _ => rfl⟩
  | succ n ih =>
    rw [List.range_succ, List.foldl_append]
    exact ih.step

/-- The scan over whole pages from the heap start. -/
theorem checkHeapIntegrity_pages (s : SentinelMap) {stop : Nat} (h : USER_HEAP_BASE ≤ stop) (hp : stop % 4096 = 0) :
    ∃ c, s.checkHeapIntegrity USER_HEAP_BASE stop = some c ∧
      ScannedWords s ((stop - USER_HEAP_BASE) / 512) c := by
  have hbase : USER_HEAP_BASE % 4096 = 0 := by decide
  have hzero : getIndex USER_HEAP_BASE = 0 := by simp [getIndex]
  have hbytes : getMapBytes (stop - USER_HEAP_BASE) = some ((stop - USER_HEAP_BASE) / 64) := by
    simp only [getMapBytes, WORD_SIZE]
    rw [if_pos (by omega), Nat.div_div_eq_div_mul]
  refine ⟨_, by rw [checkHeapIntegrity, hbytes]; rfl, ?_⟩
  simp only [hzero, Nat.zero_add, List.map_id', WORD_SIZE, Nat.div_div_eq_div_mul]
  exact scanned_words s _

/-- The scan changes no word. -/
theorem checkHeapIntegrity_words {stop : Nat} {c : Bool × SentinelMap} (h : s.checkHeapIntegrity USER_HEAP_BASE stop = some c) :
    s.sameWords c.2 := by
  have hzero : getIndex USER_HEAP_BASE = 0 := by simp [getIndex]
  obtain ⟨bytes, -, rfl⟩ := Option.map_eq_some_iff.mp h
  simp only [hzero, Nat.zero_add, List.map_id']
  exact (scanned_words s _).words

end SentinelMap

open SentinelMap

theorem XMemory.checkHeapOverflow_mem {x x' : XMemory} {b : Bool} (h : x.checkHeapOverflow = .ok (b, x')) :
    x'.heap.map.mem = x.heap.map.mem := by
  obtain ⟨c, hscan, h⟩ := Except.of_bind_ok h
  cases hc : x.heap.map.checkHeapIntegrity USER_HEAP_BASE x.heap.xheap.position with
  | none =>
    rw [hc] at hscan
    cases hscan
  | some c' =>
    rw [hc] at hscan
    cases hscan
    cases h
    exact (checkHeapIntegrity_words hc).1

/-- `checkHeapOverflow` finds a watchpoint or a reported word; when it finds none it changes nothing. -/
theorem XMemory.checkHeapOverflow_spec (x : XMemory) (h : USER_HEAP_BASE ≤ x.heap.xheap.position)
    (hp : x.heap.xheap.position % 4096 = 0) :
    ∃ b map, x.checkHeapOverflow = .ok (b, x.note .heap b map) ∧
      (b = true ↔ x.heap.map.wp ≠ [] ∨
        ∃ item < (x.heap.xheap.position - USER_HEAP_BASE) / 8, x.heap.map.Reported item) ∧
      (b = false → map = x.heap.map) := by
  obtain ⟨⟨corrupted, map⟩, hscan, hs⟩ := x.heap.map.checkHeapIntegrity_pages h hp
  have hbase : USER_HEAP_BASE % 4096 = 0 := by decide
  have hitems : (x.heap.xheap.position - USER_HEAP_BASE) / 512 * 64 = (x.heap.xheap.position - USER_HEAP_BASE) / 8 := by
    omega
  have hwp : (corrupted || hasToRollback map.wp) = true ↔ map.wp ≠ [] := by
    rw [Bool.or_eq_true, hasToRollback, decide_eq_true_eq, List.length_pos_iff]
    exact ⟨fun hor => hor.elim hs.corrupted id, .inr⟩
  refine ⟨corrupted || hasToRollback map.wp, map, by rw [checkHeapOverflow, hscan]; rfl, ?_, fun hfalse => ?_⟩
  · rw [hwp, hs.found, hitems]
  · have hnil : ¬ map.wp ≠ [] := fun hne => by rw [hwp.mpr hne] at hfalse; cases hfalse
    have hclean := hs.clean fun item hlt hr => hnil (hs.found.mpr (.inr ⟨item, hlt, hr⟩))
    exact eq_of_words hs.words hclean

end DoubleTake
