import DoubleTake.Theorems.Memalign

/-! `memalign` and `free` agree on the block: the address that `memalign` returns lies in an object of `malloc`, behind two words
    from which `free` finds the start of that object. -/

namespace DoubleTake

open SentinelMap XMemory Transition

namespace XMemory

/-- For a power of two as the boundary the aligned address is a multiple of it. -/
theorem alignedPtr_mod {ptr k : Nat} (hk : 3 ≤ k) (hlt : ptr + 2 ^ k < 2 ^ 64) : (alignedPtr ptr (2 ^ k)).1 % 2 ^ k = 0 := by
  have hpos : 0 < 2 ^ k := Nat.two_pow_pos k
  unfold alignedPtr getAlignedAddress
  by_cases hal : ptr % 2 ^ k = 0
  · rw [if_pos hal]
    dsimp only
    rw [if_pos (by omega), Nat.mod_eq_of_lt hlt, Nat.add_mod_right]
    exact hal
  · rw [if_neg hal]
    have h8 : 2 ^ k % 8 = 0 := Nat.mod_eq_zero_of_dvd (pow_dvd_pow 2 hk)
    obtain ⟨y, hy, -, hle, hgt⟩ := and_boundaryMask hlt h8 hpos (by omega)
    have hmask : (BitVec.ofNat 64 (2 ^ k) - 1#64).toNat = 2 ^ k - 1 := by
      rw [BitVec.toNat_sub, BitVec.toNat_ofNat, BitVec.toNat_ofNat]
      omega
    have hmod := @Bits.and_not_mod_two_pow (BitVec.ofNat 64 (ptr + 2 ^ k)) (BitVec.ofNat 64 (2 ^ k) - 1#64) k
      (by rw [hmask, Nat.mod_eq_of_lt (by omega)])
    rw [hy]
    dsimp only
    rw [if_neg (by omega), ← hy]
    exact hmod

/-- It is never the pointer itself. -/
theorem alignedPtr_pos {ptr boundary : Nat} (hpos : 0 < boundary) : 0 < (alignedPtr ptr boundary).2 := by
  unfold alignedPtr
  dsimp only
  split
  · exact hpos
  · omega

/-- There is room for two words in front of it when the boundary is at least two words. -/
theorem alignedPtr_two_pow {ptr k offset : Nat} (hptr : ptr % 16 = 0) (hk : 4 ≤ k) (hlt : ptr + 2 ^ k < 2 ^ 64)
    (heq : alignedPtr ptr (2 ^ k) = (ptr + offset, offset)) : (ptr + offset) % 2 ^ k = 0 ∧ 16 ≤ offset := by
  have hmod := alignedPtr_mod (by omega) hlt
  have hpos := @alignedPtr_pos ptr (2 ^ k) (Nat.two_pow_pos k)
  rw [heq] at hmod hpos
  dsimp only at hmod hpos
  have h16 : 16 ∣ ptr + offset := (pow_dvd_pow 2 hk).trans (Nat.dvd_of_mod_eq_zero hmod)
  exact ⟨hmod, by omega⟩

/-- `free` takes the address `a` for one of the object that begins at `ptr`, and of the map it clears the bit of the word before
    `a`, which is set, and changes nothing else. -/
def Decodes (map : SentinelMap) (a ptr : Nat) : Prop :=
  ∃ map', getObjectPtrAtFree map a = (ptr, map') ∧ map'.mem = map.mem ∧ map'.wp = map.wp ∧ map.isSet (a - WORD_SIZE) = true ∧
    ∀ item, map'.bitmap.isBitSet item = true ↔ item ≠ getIndex (a - WORD_SIZE) ∧ map.bitmap.isBitSet item = true

end XMemory

namespace AlignedState

open AlignedObject

variable {B : Layout} {c : Runtime} {s : AlignedState} {x : AlignedObject}

/-- The map after the application has written bytes, each with its value. -/
def wrote (map : SentinelMap) (writes : List (Nat × UInt8)) : SentinelMap :=
  { map with mem := writes.foldl (fun m w => m.set w.1 w.2) map.mem }

/-- `memalign` returns a multiple of the boundary. The `sz` bytes from there are in the object that `malloc` returns for the sum of
    the two, and so are the two words in front of them; whatever the application writes into the `sz` bytes, `free` finds that
    object. -/
def Aligns (s : AlignedState) (tid boundary sz : Nat) : Prop :=
  ∃ ptr r₁ a r, s.rt.malloc tid (boundary + sz) = .ok (ptr, r₁) ∧ s.rt.memalign tid boundary sz = .ok (a, r) ∧ a % boundary = 0 ∧
    ObjectHeader.getObjectSize r.memory.heap.map.mem ptr = boundary + sz ∧ ptr + 2 * WORD_SIZE ≤ a ∧ a + sz ≤ ptr + (boundary + sz) ∧
    ∀ writes : List (Nat × UInt8), (∀ w ∈ writes, a ≤ w.1 ∧ w.1 < a + sz) → Decodes (wrote r.memory.heap.map writes) a ptr

/-- The words in front of the address and the header of its block are not written. -/
theorem Shadow.decodes (h : Shadow c B s) (hx : x ∈ s.aligned) {writes : List (Nat × UInt8)} (hwrites : ∀ w ∈ writes, x.newptr ≤ w.1) :
    Decodes (wrote s.rt.memory.heap.map writes) x.newptr x.ptr := by
  obtain ⟨size, hB⟩ := h.block hx
  obtain ⟨h₁, h₂, -⟩ := h.bounds hx hB
  have hsame : Mem.Agree s.rt.memory.heap.map.mem (wrote s.rt.memory.heap.map writes).mem 0 x.newptr := by
    intro b _ hb
    refine (Mem.foldl_set_of_not_mem fun hmem => ?_).symm
    obtain ⟨w, hw, rfl⟩ := List.mem_map.mp hmem
    have := hwrites w hw
    omega
  have hkept : Kept (wrote s.rt.memory.heap.map writes).mem x :=
    (h.keeps hx).congr (by omega) (hsame.mono (by omega) (by omega)) (hsame.mono (by omega) (by omega))
  refine ⟨_, hkept.getObjectPtrAtFree, rfl, rfl, ?_, fun item => clear_isBitSet⟩
  exact (h.plus.map.bits _).mpr (.inr ⟨x, hx, rfl⟩)

theorem Shadow.aligns (h : Shadow c B s) {tid k sz : Nat} (hk : 4 ≤ k) (hadm : AdmittedSize (2 ^ k + sz)) :
    Spent (s.rt.malloc tid (2 ^ k + sz)) ∨ Aligns s tid (2 ^ k) sz := by
  have hpos := Nat.two_pow_pos k
  have hlt : 2 ^ k + sz < 2 ^ 64 := by
    unfold AdmittedSize at hadm
    omega
  have hw : Within (marks s.aligned) B 0 := h.within fun x hx => ⟨hx, h.ptr_ne_zero hx⟩
  have halike := h.plus.malloc hw h.memory.heap tid (2 ^ k + sz)
  cases hmal : s.rt.malloc tid (2 ^ k + sz) with
  | error e =>
    rcases Runtime.malloc_spec h.memory tid hadm.withinLimit (fun hs => absurd hs Bool.false_ne_true) with
      herr | ⟨c', p, size, hok, -⟩
    · -- the process without the marks ends in the same error
      rw [hmal] at halike
      rcases herr with herr | herr <;> (rw [herr] at halike; cases halike)
      · exact .inl (.inl rfl)
      · exact .inl (.inr rfl)
    · rw [hmal, hok] at halike
      cases halike
  | ok res =>
    obtain ⟨ptr, r₁⟩ := res
    obtain ⟨hal, hbound, offset, heq, hle, -, hreturns⟩ :=
      h.memalign_malloc (Nat.mod_eq_zero_of_dvd (pow_dvd_pow 2 (show 3 ≤ k by omega))) hpos hlt hmal
    obtain ⟨hmod, hge⟩ := alignedPtr_two_pow hal hk hbound heq
    obtain ⟨r, c', B', hok, hobj, h'⟩ := hreturns hge
    refine .inr ⟨ptr, r₁, ptr + offset, r, hmal, hok, hmod, hobj, by simp only [WORD_SIZE]; omega, by omega, fun writes hwrites => ?_⟩
    exact h'.decodes List.mem_cons_self fun w hw => (hwrites w hw).1

/-- In every run, in which `memalign` is asked for boundaries of whole words and for sizes that do not overflow: `memalign` returns
    such an address when the heap has room, the addresses that it has returned lead to the objects of `malloc` until they are given
    back, and a pointer behind an intact sentinel is taken for itself. -/
theorem memalign_free_agree (h : Reachable (system.restrict Fits) s) :
    (∀ tid k sz, 4 ≤ k → AdmittedSize (2 ^ k + sz) →
      Spent (s.rt.malloc tid (2 ^ k + sz)) ∨ Aligns s tid (2 ^ k) sz) ∧
    (∀ x ∈ s.aligned, Decodes s.rt.memory.heap.map x.newptr x.ptr) ∧
    ∀ map ptr, SentinelMap.word map (ptr - WORD_SIZE) = SENTINEL_WORD → getObjectPtrAtFree map ptr = (ptr, map) := by
  obtain ⟨c, B, hs⟩ : s.Inv := Reachable.invariant (S := system.restrict Fits) (P := Inv) (fun _ h₀ => initial_inv h₀.1 h₀.2)
    (fun _ _ _ hi hstep => hi.exec hstep.1 hstep.2.1 hstep.2.2) h
  refine ⟨fun tid k sz hk hadm => hs.aligns hk hadm, fun x hx => ?_, fun map ptr hfirst => getObjectPtrAtFree_first hfirst⟩
  exact @Shadow.decodes B c s x hs hx [] fun _ hw => absurd hw List.not_mem_nil

theorem memalign_free_agree_ten : Aligns ⟨State.start, []⟩ 0 (2 ^ 6) 10 ∧
    ∃ t, exec ⟨State.start, []⟩ (.memalign 0 64 10) = .ok t ∧ Decodes t.rt.memory.heap.map 0x100000040 0x100000020 := by
  have h₀ : Reachable (system.restrict Fits) ⟨State.start, []⟩ := .init ⟨State.start_initial, rfl⟩
  obtain ⟨t, hok, hx, -⟩ := @memalign_first 64 10 ⟨0x100000020, 0x100000040, 10⟩ 0x100000049 (some 0x100000020) (by decide +kernel)
  have hr : Reachable (system.restrict Fits) t := .step (.memalign 0 64 10) h₀ ⟨⟨by decide, by decide⟩, ⟨by decide, by decide⟩, hok⟩
  have hfree := (memalign_free_agree hr).2.1 _ hx
  obtain ⟨res, hmal, -⟩ := Except.of_bind_ok hok
  rcases (memalign_free_agree h₀).1 0 6 10 (by decide) (show 2 ^ 6 + 10 ≤ 2 ^ 29 by decide) with herr | haligns
  · rw [show (64 + 10) % 2 ^ 64 = 2 ^ 6 + 10 by decide] at hmal
    exact absurd (hmal ▸ herr) not_spent_ok
  · exact ⟨haligns, t, hok, hfree⟩

end AlignedState

end DoubleTake
