import DoubleTake.Theorems.Library

/-! What is handed out before the library is initialized. The blocks lie one behind the other, each aligned, as long as
    `xxrealloc` asks for multiples of 16 bytes and a size that does not fit is one that `tempmalloc` can tell. -/

namespace DoubleTake

open Transition

namespace Library

variable {l l' : Library} {o : LibraryOp} {tid ptr sz n p : Nat}

/-! ### Calls -/

/-- A call before the initialization. -/
def Early : LibraryOp → Prop
  | .xxmalloc _ sz | .xxrealloc _ _ sz => sz < 2 ^ 63
  | .initializer | .xxfree _ _ | .write _ _ | .epochEnd _ _ => False

/-- The runs up to the initialization, with a buffer that is aligned. -/
def starting : System Library LibraryOp where
  init l := l.Loaded ∧ l.buf % 16 = 0
  step l o l' := Early o ∧ l.exec o = .ok l'

/-- A new block: aligned, in the buffer, and apart from those that have been returned. -/
def Fresh (l : Library) (p sz : Nat) : Prop :=
  p % 16 = 0 ∧ l.buf ≤ p ∧ p + sz ≤ l.buf + InitialMallocSize ∧ ∀ x ∈ l.early, x.1 + x.2 ≤ p ∨ p + sz ≤ x.1

/-- The call aborts, or it returns a block of the size that it is asked for. -/
def HandsOut (l : Library) : LibraryOp → Prop
  | .xxmalloc tid sz => l.xxmalloc tid sz = .error .assertion ∨ ∃ p l', l.xxmalloc tid sz = .ok (p, l') ∧ l.Fresh p sz
  | .xxrealloc tid ptr sz =>
    l.xxrealloc tid ptr sz = .error .assertion ∨ ∃ p l', l.xxrealloc tid ptr sz = .ok (p, l') ∧ l.Fresh p sz
  | .initializer | .xxfree _ _ | .write _ _ | .epochEnd _ _ => True

/-- The size that is asked for, and the one that `tempmalloc` gets. -/
def asked : LibraryOp → Nat
  | .xxmalloc _ sz | .xxrealloc _ _ sz => sz
  | .initializer | .xxfree _ _ | .write _ _ | .epochEnd _ _ => 0

def rounded : LibraryOp → Nat
  | .xxmalloc _ sz => ((if sz < 16 then 16 else sz) + 15) / 16 * 16
  | .xxrealloc _ _ sz => sz
  | .initializer | .xxfree _ _ | .write _ _ | .epochEnd _ _ => 0

/-- `tempmalloc` sees that the request does not fit, or it fits, and what has been allocated is a multiple of 16. -/
def Fits (l : Library) (o : LibraryOp) : Prop :=
  InitialMallocSize < (l.allocated + rounded o) % 2 ^ 32 ∧ (l.allocated + rounded o) % 2 ^ 32 < 2 ^ 31 ∨
    l.allocated % 16 = 0 ∧ l.allocated + asked o ≤ InitialMallocSize

theorem tempmalloc_eq (l : Library) (n : Nat) : l.tempmalloc n =
    if InitialMallocSize < (l.allocated + n) % 2 ^ 32 ∧ (l.allocated + n) % 2 ^ 32 < 2 ^ 31 then .error .assertion
    else .ok ((l.buf + l.allocated).toNat, { l with allocated := toInt32 (l.allocated + n) }) := by
  rw [tempmalloc, toInt32_add_toInt32]
  exact if_congr (lt_toInt32_iff (by decide)) rfl rfl

theorem xxmalloc_early (hinit : l.initialized = false) (hsz : sz < 2 ^ 63) :
    l.xxmalloc tid sz = l.tempmalloc (rounded (.xxmalloc tid sz)) := by
  rw [xxmalloc]
  dsimp only
  rw [if_pos (by rw [hinit]; exact Bool.false_ne_true), rounded]
  congr 1
  rcases Nat.eq_zero_or_pos sz with rfl | hpos
  · rfl
  · rw [if_neg (by omega : ¬ sz = 0)]
    split <;> omega

theorem xxrealloc_early (hinit : l.initialized = false) : l.xxrealloc tid ptr sz = l.tempmalloc sz := by
  rw [xxrealloc, if_neg (by rw [hinit]; exact Bool.false_ne_true)]

/-- `xxmalloc` rounds up, and `xxrealloc` does not. -/
theorem rounded_spec (ho : Early o) : asked o ≤ rounded o ∧
    (rounded o = asked o ∨ rounded o % 16 = 0 ∧ rounded o ≤ asked o + 16) := by
  cases o with
  | xxmalloc tid sz =>
    simp only [asked, rounded]
    split <;> omega
  | xxrealloc tid ptr sz => exact ⟨le_rfl, .inl rfl⟩
  | initializer | xxfree | write | epochEnd => exact absurd ho id

/-! ### Runs -/

/-- What the calls that have fitted leave: the blocks lie below what has been allocated. -/
structure Bumped (l : Library) : Prop where
  initialized : l.initialized = false
  aligned : l.buf % 16 = 0
  buf : l.buf + InitialMallocSize ≤ USER_HEAP_BASE ∨ USER_HEAP_BASE + USER_HEAP_SIZE ≤ l.buf
  allocated : 0 ≤ l.allocated ∧ l.allocated ≤ InitialMallocSize
  early : ∀ x ∈ l.early, l.buf ≤ x.1 ∧ (x.1 + x.2 : Int) ≤ l.buf + l.allocated

theorem Loaded.bumped (h : l.Loaded) (hbuf : l.buf % 16 = 0) : l.Bumped := by
  refine ⟨h.initialized, hbuf, h.buf, ?_, fun x hx => ?_⟩
  · rw [h.allocated]
    decide
  · rw [h.early] at hx
    cases hx

/-- The next block. -/
theorem Bumped.fresh_iff (h : l.Bumped) :
    l.Fresh (l.buf + l.allocated).toNat n ↔ l.allocated % 16 = 0 ∧ l.allocated + n ≤ InitialMallocSize := by
  have hbuf := h.aligned
  obtain ⟨h₀, h₁⟩ := h.allocated
  simp only [InitialMallocSize] at h₁ ⊢
  constructor
  · rintro ⟨hp, -, hend, -⟩
    simp only [InitialMallocSize] at hend
    omega
  · rintro ⟨hmod, hroom⟩
    refine ⟨by omega, by omega, by simp only [InitialMallocSize]; omega, fun x hx => .inl ?_⟩
    have hbelow := (h.early x hx).2
    omega

theorem Bumped.tempmalloc_iff (h : l.Bumped) : (l.tempmalloc (rounded o) = .error .assertion ∨
    ∃ p l', l.tempmalloc (rounded o) = .ok (p, l') ∧ l.Fresh p (asked o)) ↔ l.Fits o := by
  rw [tempmalloc_eq, Fits, ← h.fresh_iff]
  by_cases habort : InitialMallocSize < (l.allocated + rounded o) % 2 ^ 32 ∧ (l.allocated + rounded o) % 2 ^ 32 < 2 ^ 31
  · rw [if_pos habort]
    exact iff_of_true (.inl rfl) (.inl habort)
  · rw [if_neg habort, or_iff_right habort, or_iff_right (fun herr => by cases herr)]
    constructor
    · rintro ⟨p, l', hok, hfresh⟩
      cases hok
      exact hfresh
    · exact fun hfresh => ⟨_, _, rfl, hfresh⟩

theorem handsOut_iff (h : l.Bumped) (ho : Early o) : l.HandsOut o ↔ l.Fits o := by
  rw [← h.tempmalloc_iff]
  cases o with
  | xxmalloc tid sz => rw [HandsOut, xxmalloc_early h.initialized ho, asked]
  | xxrealloc tid ptr sz => rw [HandsOut, xxrealloc_early h.initialized, asked, rounded]
  | initializer | xxfree | write | epochEnd => exact absurd ho id

/-- A request that fits and does not abort: the block is part of what has been allocated then. -/
theorem Bumped.tempmalloc (h : l.Bumped) (ho : Early o) (hfits : l.Fits o) (hok : l.tempmalloc (rounded o) = .ok (p, l')) :
    l'.Bumped ∧ l'.buf ≤ p ∧ (p + asked o : Int) ≤ l'.buf + l'.allocated := by
  obtain ⟨h₀, h₁⟩ := h.allocated
  obtain ⟨hle, hround⟩ := rounded_spec ho
  rw [tempmalloc_eq] at hok
  split at hok
  · cases hok
  next habort =>
    cases hok
    obtain ⟨hmod, hroom⟩ := hfits.resolve_left habort
    simp only [InitialMallocSize] at h₁ hroom habort
    -- What is left is a multiple of 16, so there is room for the rounded size as well.
    have hend : l.allocated + rounded o ≤ 1024 * 1024 * 1024 := by omega
    rw [toInt32_of_lt (by omega) (by omega)]
    refine ⟨⟨h.initialized, h.aligned, h.buf, ⟨by dsimp only; omega, by dsimp only [InitialMallocSize]; omega⟩, fun x hx => ?_⟩,
      by dsimp only; omega, by dsimp only; omega⟩
    obtain ⟨hlow, hbelow⟩ := h.early x hx
    exact ⟨hlow, by dsimp only; omega⟩

theorem Bumped.drop (h : l.Bumped) (p : Nat) : (l.drop p).Bumped := ⟨h.initialized, h.aligned, h.buf, h.allocated, h.early⟩

theorem Bumped.hold (h : l.Bumped) (h₁ : l.buf ≤ p) (h₂ : (p + n : Int) ≤ l.buf + l.allocated) : (l.hold p n).Bumped := by
  have hmax := h.allocated.2
  rw [Library.hold, not_inRange_of_buf h.buf h₁ (by omega), if_neg Bool.false_ne_true]
  refine ⟨h.initialized, h.aligned, h.buf, h.allocated, fun x hx => ?_⟩
  rcases List.mem_cons.mp hx with rfl | hx
  · exact ⟨h₁, h₂⟩
  · exact h.early x hx

theorem Bumped.step (h : l.Bumped) (hfits : l.Fits o) (hs : starting.step l o l') : l'.Bumped := by
  obtain ⟨ho, hok⟩ := hs
  cases o with
  | xxmalloc tid sz =>
    obtain ⟨⟨p, l₁⟩, hcall, hok⟩ := Except.of_bind_ok hok
    cases hok
    rw [xxmalloc_early h.initialized ho] at hcall
    obtain ⟨h', h₁, h₂⟩ := h.tempmalloc ho hfits hcall
    exact h'.hold h₁ h₂
  | xxrealloc tid ptr sz =>
    obtain ⟨⟨p, l₁⟩, hcall, hok⟩ := Except.of_bind_ok hok
    cases hok
    rw [xxrealloc_early h.initialized] at hcall
    obtain ⟨h', h₁, h₂⟩ := h.tempmalloc ho hfits hcall
    exact (h'.drop ptr).hold h₁ h₂
  | initializer | xxfree | write | epochEnd => exact absurd ho id

theorem reachable_bumped (h : Reachable (starting.restrict Fits) l) : l.Bumped :=
  Reachable.invariant (S := starting.restrict Fits) (P := Bumped) (fun _ hl => hl.1.bumped hl.2)
    (fun _ _ _ hi hs => hi.step hs.1 hs.2) h

/-- As long as all requests have fitted, the next call aborts or returns a new aligned block exactly if its request fits. -/
theorem hands_out_iff (h : Reachable (starting.restrict Fits) l) (ho : Early o) : l.HandsOut o ↔ l.Fits o :=
  handsOut_iff (reachable_bumped h) ho

theorem hands_out_second : ∃ l, Reachable (starting.restrict Fits) l ∧ l.early = [(0x1000000, 5)] ∧ l.HandsOut (.xxmalloc 0 7) := by
  have hrun : (loaded.exec (.xxmalloc 0 5)).toOption.map (fun l => (l.early, l.allocated)) = some ([(0x1000000, 5)], 16) := by
    decide +kernel
  obtain ⟨l, hl, heq⟩ := Option.map_eq_some_iff.mp hrun
  obtain ⟨hearly, hallocated⟩ := Prod.mk.inj heq
  have hr : Reachable (starting.restrict Fits) l :=
    .step (.xxmalloc 0 5) (.init ⟨loaded_loaded, rfl⟩)
      ⟨.inr ⟨rfl, by decide⟩, (by decide : (5 : Nat) < 2 ^ 63), Except.of_toOption hl⟩
  have ho : Early (.xxmalloc 0 7) := (by decide : (7 : Nat) < 2 ^ 63)
  refine ⟨l, hr, hearly, (hands_out_iff hr ho).mpr (.inr ?_)⟩
  rw [hallocated]
  decide

/-- `xxrealloc` of 5 bytes: the next block is not aligned. -/
theorem unrounded_misaligns : ¬ ∀ l, Reachable starting l → ∀ o, Early o → l.HandsOut o := by
  intro h
  have hrun : (loaded.exec (.xxrealloc 0 0 5)).toOption.map (fun l => (l.xxmalloc 0 1).toOption.map Prod.fst) = some (some 0x1000005) := by
    decide +kernel
  obtain ⟨l, hl, heq⟩ := Option.map_eq_some_iff.mp hrun
  obtain ⟨⟨q, l'⟩, hok, hq⟩ := Option.map_eq_some_iff.mp heq
  have hok := Except.of_toOption hok
  have hr : Reachable starting l :=
    .step (.xxrealloc 0 0 5) (.init ⟨loaded_loaded, rfl⟩) ⟨(by decide : (5 : Nat) < 2 ^ 63), Except.of_toOption hl⟩
  rcases h l hr (.xxmalloc 0 1) (by decide : (1 : Nat) < 2 ^ 63) with herr | ⟨p, l₁, hok', halign, -⟩
  · rw [herr] at hok
    cases hok
  · rw [hok, Except.ok.injEq, Prod.mk.injEq] at hok'
    rw [← hok'.1] at halign
    dsimp only at hq
    rw [hq] at halign
    cases halign

end Library

end DoubleTake
