import Mathlib.Data.Set.Insert
import DoubleTake.BitmapObject
import DoubleTake.Lib.Except
import DoubleTake.Theorems.Bitmap

/-! What the operations of the class `bitmap` do where the words they need lie in the buffer: they act on the set of items whose
    bits are set. -/

namespace DoubleTake
namespace BitmapObject

variable {b : BitmapObject} {buf : Bitmap} {bytes elements words item wordIndex lastBitIndex n : Nat} {op : Op} {ops : List Op}

/-! ### The tables -/

/-- The tables hold the masks. -/
def Masked (b : BitmapObject) : Prop := ∀ i < WORDBITS, b.on i = Bitmap.on i ∧ b.off i = Bitmap.off i

/-- What the first rounds of the loop have filled, and what they leave alone. -/
theorem initMask_range (b : BitmapObject) (k : Nat) :
    let b' := (List.range k).foldl initMask b
    (∀ i < k, b'.on i = Bitmap.on i ∧ b'.off i = Bitmap.off i) ∧ b'.start = b.start ∧ b'.bytes = b.bytes ∧
      b'.words = b.words ∧ b'.elements = b.elements := by
  induction k with
  | zero => exact ⟨fun i hi => absurd hi (Nat.not_lt_zero i), rfl, rfl, rfl, rfl⟩
  | succ k ih =>
    rw [List.range_succ, List.foldl_append]
    obtain ⟨hmask, hrest⟩ := ih
    refine ⟨fun i hi => ?_, hrest⟩
    by_cases hk : i = k
    · subst hk
      have hon : (initMask ((List.range i).foldl initMask b) i).on i = Bitmap.on i := Function.update_self ..
      exact ⟨hon, (Function.update_self ..).trans (congrArg (~~~ ·) hon)⟩
    · obtain ⟨hon, hoff⟩ := hmask i (by omega)
      exact ⟨(Function.update_of_ne hk _ _).trans hon, (Function.update_of_ne hk _ _).trans hoff⟩

theorem initialized_spec (b : BitmapObject) (buf : Bitmap) (bytes elements words : Nat) :
    (b.initialized buf bytes elements words).Masked ∧ (b.initialized buf bytes elements words).start = buf ∧
      (b.initialized buf bytes elements words).bytes = bytes ∧ (b.initialized buf bytes elements words).words = words ∧
      (b.initialized buf bytes elements words).elements = elements :=
  initMask_range { b with start := buf, bytes := bytes, elements := elements, words := words } WORDBITS

/-! ### Words -/

/-- The word is one that the assertions admit, and lies in the buffer. -/
def Inside (b : BitmapObject) (wordIndex : Nat) : Prop := wordIndex ≤ b.words ∧ wordIndex * 8 + 8 ≤ b.bytes

theorem getWord_of_inside (h : b.Inside wordIndex) : b.getWord wordIndex = .ok (b.start wordIndex) := by
  rw [getWord, if_neg (not_not.mpr h.1), if_pos h.2]

theorem getWord_of_outside (hw : wordIndex ≤ b.words) (h : b.bytes < wordIndex * 8 + 8) :
    b.getWord wordIndex = .error (.outside wordIndex) := by
  rw [getWord, if_neg (not_not.mpr hw), if_neg (by omega)]

theorem Inside.mono {w : Nat} (h : b.Inside wordIndex) (hw : w ≤ wordIndex) : b.Inside w := by
  obtain ⟨h₁, h₂⟩ := h
  exact ⟨by omega, by omega⟩

/-! ### Operations on items -/

/-- What an operation answers and does on the words alone. -/
def Op.onWords (words : Bitmap) : Op → Option Bool × Bitmap
  | .setBit item => (none, (words.checkSetBit item).2)
  | .checkSetBit item => (some (words.checkSetBit item).1, (words.checkSetBit item).2)
  | .clearBit item => (none, words.clearBit item)
  | .isBitSet item => (some (words.isBitSet item), words)

theorem exec_of_inside (hm : b.Masked) (he : op.item ≤ b.elements) (h : b.Inside (op.item / WORDBITS)) :
    b.exec op = .ok ((op.onWords b.start).1, { b with start := (op.onWords b.start).2 }) := by
  obtain ⟨hon, hoff⟩ := hm (op.item % WORDBITS) (Nat.mod_lt _ (by decide))
  cases op with
  | setBit item =>
    simp only [Op.item] at he h hon
    simp only [exec, setBit, onItem, not_not.mpr he, if_false, Bitmap.getIndexes, setBitAt, getWord_of_inside h, hon]
    rfl
  | checkSetBit item =>
    simp only [Op.item] at he h hon
    simp only [exec, checkSetBit, onItem, not_not.mpr he, if_false, Bitmap.getIndexes, checkSetBitAt, getWord_of_inside h, hon]
    rfl
  | clearBit item =>
    simp only [Op.item] at he h hoff
    simp only [exec, clearBit, onItem, not_not.mpr he, if_false, Bitmap.getIndexes, clearBitAt, getWord_of_inside h, hoff]
    rfl
  | isBitSet item =>
    simp only [Op.item] at he h hon
    simp only [exec, isBitSet, onItem, not_not.mpr he, if_false, Bitmap.getIndexes, isBitSetAt, getWord_of_inside h, hon]
    rfl

theorem exec_of_outside (he : op.item ≤ b.elements) (hw : op.item / WORDBITS ≤ b.words)
    (h : b.bytes < op.item / WORDBITS * 8 + 8) : b.exec op = .error (.outside (op.item / WORDBITS)) := by
  have hget := getWord_of_outside hw h
  cases op <;> simp only [Op.item] at he hget <;>
    simp only [exec, setBit, checkSetBit, clearBit, isBitSet, onItem, not_not.mpr he, if_false, Bitmap.getIndexes, setBitAt,
      checkSetBitAt, clearBitAt, isBitSetAt, hget] <;> rfl

/-! ### Sets of items -/

/-- The items whose bits are set. -/
def members (words : Bitmap) : Set ℕ := {i | words.isBitSet i = true}

/-- What an operation does to a set of items. -/
def Op.onSet (S : Set ℕ) : Op → Set ℕ
  | .setBit item | .checkSetBit item => insert item S
  | .clearBit item => S \ {item}
  | .isBitSet _ => S

open Classical in
/-- What an operation is to answer. -/
noncomputable def Op.answer (S : Set ℕ) : Op → Option Bool
  | .setBit _ | .clearBit _ => none
  | .checkSetBit item => some (decide (item ∉ S))
  | .isBitSet item => some (decide (item ∈ S))

/-- The answers to a sequence of operations on a set. -/
noncomputable def answers (S : Set ℕ) : List Op → List (Option Bool)
  | [] => []
  | op :: ops => op.answer S :: answers (op.onSet S) ops

theorem checkSetBit_fst (words : Bitmap) (item : Nat) : (words.checkSetBit item).1 = !words.isBitSet item := by
  show (_ == _) = !(_ != _)
  rw [bne, Bool.not_not]

theorem members_onWords (words : Bitmap) (op : Op) : members (op.onWords words).2 = op.onSet (members words) := by
  have hset : ∀ item, members (words.checkSetBit item).2 = insert item (members words) := fun item => by
    ext k
    show (words.checkSetBit item).2.isBitSet k = true ↔ k = item ∨ words.isBitSet k = true
    rw [Bitmap.checkSetBit_isBitSet, Bool.or_eq_true, beq_iff_eq]
  cases op with
  | setBit item => exact hset item
  | checkSetBit item => exact hset item
  | clearBit item =>
    ext k
    show (words.clearBit item).isBitSet k = true ↔ words.isBitSet k = true ∧ k ∉ {item}
    rw [Bitmap.clearBit_isBitSet, Bool.and_eq_true, bne_iff_ne, and_comm]
    rfl
  | isBitSet item => rfl

open Classical in
theorem answer_onWords (words : Bitmap) (op : Op) : (op.onWords words).1 = op.answer (members words) := by
  cases op with
  | setBit item => rfl
  | clearBit item => rfl
  | checkSetBit item =>
    refine congrArg some ?_
    rw [checkSetBit_fst, Bool.eq_iff_iff, decide_eq_true_eq, Bool.not_eq_true', ← Bool.not_eq_true]
    rfl
  | isBitSet item =>
    refine congrArg some ?_
    rw [Bool.eq_iff_iff, decide_eq_true_eq]
    rfl

/-- In a buffer that holds all items, a sequence of operations acts on the set of those whose bits are set. -/
theorem execAll_members (hm : b.Masked) (hitems : ∀ op ∈ ops, op.item ≤ b.elements ∧ b.Inside (op.item / WORDBITS)) :
    ∃ words, b.execAll ops = .ok (answers (members b.start) ops, { b with start := words }) ∧
      members words = ops.foldl Op.onSet (members b.start) := by
  induction ops generalizing b with
  | nil => exact ⟨b.start, rfl, rfl⟩
  | cons op ops ih =>
    obtain ⟨he, hin⟩ := hitems op List.mem_cons_self
    obtain ⟨words, hexec, hwords⟩ := @ih { b with start := (op.onWords b.start).2 } hm
      fun o ho => hitems o (List.mem_cons_of_mem _ ho)
    refine ⟨words, ?_, ?_⟩
    · rw [execAll, Except.bind_of_ok (exec_of_inside hm he hin)]
      dsimp only
      rw [Except.bind_of_ok hexec, members_onWords, answer_onWords]
      rfl
    · rw [hwords, members_onWords, List.foldl_cons]

/-- Items that no operation is about stay as they are. -/
theorem mem_foldl_onSet_of_not_mem {S : Set ℕ} {i : Nat} (hi : ∀ op ∈ ops, op.item ≠ i) : i ∈ ops.foldl Op.onSet S ↔ i ∈ S := by
  induction ops generalizing S with
  | nil => exact Iff.rfl
  | cons op ops ih =>
    rw [List.foldl_cons, ih fun o ho => hi o (List.mem_cons_of_mem _ ho)]
    have hne := hi op List.mem_cons_self
    cases op with
    | setBit item => exact or_iff_right (Ne.symm hne)
    | checkSetBit item => exact or_iff_right (Ne.symm hne)
    | clearBit item => exact and_iff_left (Ne.symm hne)
    | isBitSet item => exact Iff.rfl

/-- The operations on items below `n` are those on a set, for every buffer whose words hold `n` bits and that the assertions
    admit; the bits of all other items stay as they are. -/
theorem refines_set (b : BitmapObject) (buf : Bitmap) (hbytes : n ≤ WORDBITS * (bytes / 8)) (hwords : n ≤ WORDBITS * (words + 1))
    (hops : ∀ op ∈ ops, op.item < n) :
    ∃ b', (b.initialized buf bytes n words).execAll ops = .ok (answers (members buf) ops, b') ∧
      members b'.start = ops.foldl Op.onSet (members buf) ∧
      ∀ i, (∀ op ∈ ops, op.item ≠ i) → b'.start.isBitSet i = buf.isBitSet i := by
  obtain ⟨hm, hstart, hbytes', hwords', helements⟩ := initialized_spec b buf bytes n words
  obtain ⟨words', hexec, hmem⟩ := @execAll_members _ ops hm fun op hop => by
    have hlt := hops op hop
    rw [helements, Inside, hbytes', hwords']
    simp only [WORDBITS] at *
    omega
  rw [hstart] at hexec hmem
  refine ⟨_, hexec, hmem, fun i hi => Bool.eq_iff_iff.mpr ?_⟩
  show i ∈ members words' ↔ i ∈ members buf
  rw [hmem]
  exact mem_foldl_onSet_of_not_mem hi

theorem refines_set_hundred :
    ∃ b', ((⟨fun _ => 0, fun _ => 0, fun _ => 0, 0, 0, 0⟩ : BitmapObject).initialized (fun _ => 0) 16 100 12).execAll
        [.checkSetBit 99, .clearBit 35, .isBitSet 99] = .ok (answers (members fun _ => 0) [.checkSetBit 99, .clearBit 35, .isBitSet 99], b') ∧
      members b'.start = [.checkSetBit 99, .clearBit 35, .isBitSet 99].foldl Op.onSet (members fun _ => 0) ∧
      ∀ i, (∀ op ∈ [Op.checkSetBit 99, .clearBit 35, .isBitSet 99], op.item ≠ i) →
        b'.start.isBitSet i = Bitmap.isBitSet (fun _ => 0) i :=
  refines_set _ _ (by decide) (by decide) (by decide)

/-! ### The size of the buffer -/

theorem getBytes_eq (h : n < 2 ^ 31) : getBytes n = (n / BYTEBITS : Nat) := by
  rw [getBytes, toInt32_of_lt (by omega) (by omega)]
  exact (Int.ofNat_tdiv n BYTEBITS).symm

theorem outside_iff (he : op.item ≤ b.elements) (hm : b.Masked) (hw : op.item / WORDBITS ≤ b.words) :
    (∀ w, b.exec op ≠ .error (.outside w)) ↔ op.item / WORDBITS * 8 + 8 ≤ b.bytes := by
  constructor
  · intro h
    by_contra hlt
    exact h _ (exec_of_outside he hw (by omega))
  · intro hin w h
    rw [exec_of_inside hm he ⟨hw, hin⟩] at h
    cases h

/-- Of the items that the assertions admit, those in the last words of 64 bits that are whole have their word in the buffer. -/
theorem word_inside_iff (b : BitmapObject) (buf : Bitmap) (hpos : 0 < n) (hn : n < 2 ^ 31) :
    (∀ op, op.item ≤ n → ((∀ w, (b.ofTest buf n).exec op ≠ .error (.outside w)) ↔ op.item < WORDBITS * (n / WORDBITS))) ∧
      ∀ size, size % PageSize = 0 → size >>> 3 = n →
        ∀ op, op.item ≤ n → ((∀ w, (b.ofSentinelmap buf size).exec op ≠ .error (.outside w)) ↔ op.item < n) := by
  have hbytes : (getBytes n).toNat = n / 8 := by
    rw [getBytes_eq hn]
    rfl
  constructor
  · intro op hop
    obtain ⟨hm, -, hb, hw, he⟩ := initialized_spec b buf (n / 8) n (n / 8)
    rw [ofTest, hbytes, outside_iff (by rw [he]; exact hop) hm (by rw [hw]; simp only [WORDBITS]; omega), hb]
    simp only [WORDBITS]
    omega
  · intro size hsize hshift op hop
    obtain ⟨hm, -, hb, hw, he⟩ := initialized_spec b buf (n / 8) n (n / 8)
    rw [ofSentinelmap, hshift, hbytes, outside_iff (by rw [he]; exact hop) hm (by rw [hw]; simp only [WORDBITS]; omega), hb]
    have hpage : n % 512 = 0 := by
      rw [Nat.shiftRight_eq_div_pow] at hshift
      simp only [PageSize] at hsize
      omega
    simp only [WORDBITS]
    omega

theorem word_inside_hundred :
    (∀ op, op.item ≤ 100 → ((∀ w, ((⟨fun _ => 0, fun _ => 0, fun _ => 0, 0, 0, 0⟩ : BitmapObject).ofTest (fun _ => 0) 100).exec op ≠
        .error (.outside w)) ↔ op.item < WORDBITS * (100 / WORDBITS))) ∧
      ∀ size, size % PageSize = 0 → size >>> 3 = 100 → ∀ op, op.item ≤ 100 →
        ((∀ w, ((⟨fun _ => 0, fun _ => 0, fun _ => 0, 0, 0, 0⟩ : BitmapObject).ofSentinelmap (fun _ => 0) size).exec op ≠
          .error (.outside w)) ↔ op.item < 100) :=
  word_inside_iff _ _ (by decide) (by decide)

/-- The word of the last item of the first round of the unit test ends four bytes after the buffer. -/
theorem last_word_outside :
    ¬ ∀ b buf n, 0 < n → n < 2 ^ 31 → ∀ op, op.item ≤ n → ∀ w, (ofTest b buf n).exec op ≠ .error (.outside w) := by
  intro h
  have := (word_inside_iff ⟨fun _ => 0, fun _ => 0, fun _ => 0, 0, 0, 0⟩ (fun _ => 0) (show 0 < 100 by decide) (by decide)).1
    (.setBit 99) (by decide)
  exact absurd (this.mp (h _ _ 100 (by decide) (by decide) (.setBit 99) (by decide))) (by decide)

/-! ### The backward search -/

/-- What is returned and stored for what a search has found. -/
def stored (lastBitIndex : Nat) : Option Nat → Bool × Nat
  | some i => (true, i)
  | none => (false, lastBitIndex)

theorem lastBitInWord_eq (hm : b.Masked) {bitword : BitVec 64} {lsbIndex bitIndex : Nat} (h : bitIndex ≤ WORDBITS) :
    b.lastBitInWord bitword wordIndex lsbIndex lastBitIndex bitIndex =
      stored lastBitIndex ((Bitmap.getLastBitInWord bitword lsbIndex bitIndex).map (Bitmap.getItemIndex wordIndex)) := by
  induction bitIndex with
  | zero => rfl
  | succ bitIndex ih =>
    have hbit : b.isBitSetOnWord bitword bitIndex = Bitmap.isBitSetOnWord bitword bitIndex := by
      rw [isBitSetOnWord, (hm bitIndex (by omega)).1, Bitmap.isBitSetOnWord]
    rw [lastBitInWord, Bitmap.getLastBitInWord, hbit]
    by_cases hlsb : lsbIndex < bitIndex + 1
    · rw [if_pos hlsb, if_pos hlsb]
      split
      · rfl
      · exact ih (by omega)
    · rw [if_neg hlsb, if_neg hlsb]
      rfl

theorem lastBitBelow_eq (hin : ∀ w < wordIndex, b.Inside w) :
    b.lastBitBelow lastBitIndex wordIndex = .ok (stored lastBitIndex (b.start.getLastBitBelow wordIndex)) := by
  induction wordIndex with
  | zero => rfl
  | succ wordIndex ih =>
    have hstep : b.start.getLastBitBelow (wordIndex + 1) = if b.start wordIndex ≠ 0#64 then
        some (Bitmap.getItemIndex wordIndex ((Bitmap.getMsbIndex (b.start wordIndex) + 1) % 2 ^ 64))
        else b.start.getLastBitBelow wordIndex := rfl
    rw [lastBitBelow, Except.bind_of_ok (getWord_of_inside (hin wordIndex (Nat.lt_succ_self _))), hstep]
    by_cases hz : b.start wordIndex ≠ 0#64
    · rw [if_pos hz, if_pos hz]
      rfl
    · rw [if_neg hz, if_neg hz]
      exact ih fun w hw => hin w (by omega)

theorem lastBitOfWord_eq (hm : b.Masked) {bitword : BitVec 64} {bitIndex : Nat} (h : bitIndex ≤ WORDBITS) :
    b.lastBitOfWord bitword wordIndex bitIndex lastBitIndex =
      stored lastBitIndex ((if bitword ≠ 0#64 then Bitmap.getLastBitInWord bitword (Bitmap.getLsbIndex bitword) bitIndex
        else none).map (Bitmap.getItemIndex wordIndex)) := by
  rw [lastBitOfWord]
  by_cases hz : bitword ≠ 0#64
  · rw [if_pos hz, if_pos hz]
    dsimp only
    split
    · exact lastBitInWord_eq hm h
    · -- at the least significant bit the loop of the search does not begin
      rename_i hle
      cases bitIndex with
      | zero => rfl
      | succ k =>
        rw [Bitmap.getLastBitInWord, if_neg hle]
        rfl
  · rw [if_neg hz, if_neg hz]
    rfl

/-- `getLastBit` on the object is the search over the words, and stores nothing where that finds nothing. -/
theorem getLastBit_eq (hm : b.Masked) (hin : b.Inside (item / WORDBITS)) :
    b.getLastBit item lastBitIndex = .ok (stored lastBitIndex (b.start.getLastBit item)) := by
  have hbelow := @lastBitBelow_eq b (item / WORDBITS) lastBitIndex fun w hw => hin.mono hw.le
  rw [getLastBit, Bitmap.getLastBit]
  dsimp only [Bitmap.getIndexes, Bitmap.readWord]
  rw [Except.bind_of_ok (getWord_of_inside hin), lastBitOfWord_eq hm (Nat.mod_lt item (by decide)).le]
  cases (if b.start (item / WORDBITS) ≠ 0#64 then Bitmap.getLastBitInWord (b.start (item / WORDBITS))
      (Bitmap.getLsbIndex (b.start (item / WORDBITS))) (item % WORDBITS) else none) with
  | some i => rfl
  | none => exact hbelow

/-- The search returns the greatest set item below the given one, or that there is none, and then it stores nothing. -/
theorem getLastBit_greatest (b : BitmapObject) (buf : Bitmap) (hwords : item / WORDBITS ≤ words)
    (hbytes : item / WORDBITS * 8 + 8 ≤ bytes) (idx : Nat) :
    (∃ k < item, buf.isBitSet k = true ∧ (∀ j, k < j → j < item → buf.isBitSet j = false) ∧
        (b.initialized buf bytes elements words).getLastBit item idx = .ok (true, k)) ∨
      (∀ k < item, buf.isBitSet k = false) ∧ (b.initialized buf bytes elements words).getLastBit item idx = .ok (false, idx) := by
  obtain ⟨hm, hstart, hb, hw, -⟩ := initialized_spec b buf bytes elements words
  have hin : (b.initialized buf bytes elements words).Inside (item / WORDBITS) := by
    rw [Inside, hb, hw]
    exact ⟨hwords, hbytes⟩
  have heq := @getLastBit_eq _ item idx hm hin
  rw [hstart, Bitmap.getLastBit_eq] at heq
  cases hlast : Bits.lastSet buf.isBitSet item with
  | some k =>
    obtain ⟨hlt, hset, hmax⟩ := Bits.lastSet_eq_some.mp hlast
    exact .inl ⟨k, hlt, hset, hmax, by rw [heq, hlast, stored]⟩
  | none => exact .inr ⟨Bits.lastSet_eq_none.mp hlast, by rw [heq, hlast, stored]⟩

theorem getLastBit_greatest_seventy :
    (∃ k < 70, Bitmap.isBitSet (fun _ => 1) k = true ∧ (∀ j, k < j → j < 70 → Bitmap.isBitSet (fun _ => 1) j = false) ∧
        ((⟨fun _ => 0, fun _ => 0, fun _ => 0, 0, 0, 0⟩ : BitmapObject).initialized (fun _ => 1) 16 128 16).getLastBit 70 7 =
          .ok (true, k)) ∨
      (∀ k < 70, Bitmap.isBitSet (fun _ => 1) k = false) ∧
        ((⟨fun _ => 0, fun _ => 0, fun _ => 0, 0, 0, 0⟩ : BitmapObject).initialized (fun _ => 1) 16 128 16).getLastBit 70 7 =
          .ok (false, 7) :=
  getLastBit_greatest _ _ (by decide) (by decide) 7

end BitmapObject
end DoubleTake
