import DoubleTake.Theorems.Runs

/-! Which sizes `realmalloc` can deal with. A null pointer of the heap is not looked at before the header in front of it is
    written, so no size above the limit of the heap gets an answer; below it, the header has the size of the object and the
    block has room for it, and the guard is there unless the object fills a recycled block whose last sentinel is unmarked. -/

namespace DoubleTake

open SentinelMap XMemory Transition

variable {strict : Bool} {B : Layout} {x x' : XMemory} {tid sz p : Nat}

/-! ### Objects that fill their blocks -/

/-- A size class with a free block gives it out as it is. -/
theorem XPHeap.segMalloc_recycled {h : XPHeap} {rest : List Nat} (h₁ : 16 ≤ sz) (h₂ : sz ≤ 2 ^ 31)
    (hbin : h.bins tid (Kingsley.size2Class sz) = p :: rest) : ∃ h', h.segMalloc tid sz = .ok (p, h') ∧ h'.map = h.map := by
  obtain ⟨hc₁, hc₂, hle⟩ := Kingsley.size2Class_spec h₁ h₂
  have hs : BlockSize (Kingsley.class2Size (Kingsley.size2Class sz)) := ⟨_, hc₁, hc₂, rfl⟩
  have hmax : Kingsley.class2Size (Kingsley.size2Class sz) ≤ XPHeap.maxObjectSize := hs.bounds.2.2
  simp only [XPHeap.segMalloc]
  rw [if_neg (by omega), if_pos hmax, hbin]
  exact ⟨_, rfl, rfl⟩

/-- The block is of the size class of the request. The guard word of an object that fills it is marked exactly if that of a
    recycled block is. -/
theorem XMemory.realmalloc_class (hi : HeapInv strict x.heap B) {rings : Nat → List FreeObject} {live : List Nat}
    (hl : Lists x.heap.bins rings live B) (hsz : WithinLimit sz) (hok : x.realmalloc tid sz = .ok (p, x')) :
    BlockSize (ObjectHeader.getSize x'.heap.map.mem p) ∧
      ObjectHeader.getSize x'.heap.map.mem p = Kingsley.class2Size (Kingsley.size2Class (requestSize sz)) ∧
      (ObjectHeader.getSize x'.heap.map.mem p = objectSize sz →
        (x'.heap.map.isSet (p + objectSize sz) = true ↔ ExactFitMarked x.heap tid sz)) := by
  obtain ⟨hr₁, hr₂, hle, hpos⟩ := requestSize_bounds hsz
  rw [x.realmalloc_eq tid (by simp only [WithinLimit] at hsz; omega), XPHeap.malloc_request hr₁ hr₂] at hok
  rcases hi.segMalloc hl tid hr₁ (by omega) with herr | ⟨h', q, size, hm, ho⟩
  · exact absurd (hok ▸ herr.bind) not_spent_ok
  have hB : Function.update B q (some ⟨size, .taken⟩) q = some ⟨size, .taken⟩ := Function.update_self ..
  have hp := ho.heap.placed hB
  have hblock := ho.heap.block hB
  have htaken : Use.taken ≠ .live := fun h => by cases h
  have hsize : ObjectHeader.getSize (ObjectHeader.setObjectSize h'.map.mem q (objectSize sz)) q = size :=
    (hblock.setObjectSize _ hp htaken).size
  have hle' : objectSize sz ≤ size := hle.trans ho.le
  have hlow := hp.low
  simp only [USER_HEAP_BASE] at hlow
  rw [Except.bind_of_ok hm] at hok
  dsimp only at hok
  rw [if_neg (by omega), hsize, if_neg (by omega)] at hok
  by_cases hgt : size > objectSize sz
  · rw [if_pos hgt] at hok
    cases hok
    have hnew : ObjectHeader.getSize _ p = size := (hblock.newObject hp htaken hpos hle').1.size
    exact ⟨(congrArg BlockSize hnew).mpr ho.block, hnew.trans ho.class_eq, fun hfull => absurd (hnew.symm.trans hfull) (by omega)⟩
  rw [if_neg hgt] at hok
  cases hok
  have hfit : objectSize sz = size := by omega
  refine ⟨(congrArg BlockSize hsize).mpr ho.block, hsize.trans ho.class_eq, fun _ => ?_⟩
  change h'.map.isSet (p + objectSize sz) = true ↔ _
  cases hbin : x.heap.bins tid (Kingsley.size2Class (requestSize sz)) with
  | cons r rest =>
    obtain ⟨h'', hm', hmap⟩ := XPHeap.segMalloc_recycled hr₁ (by omega) hbin
    rw [hm, Except.ok.injEq, Prod.mk.injEq] at hm'
    obtain ⟨rfl, rfl⟩ := hm'
    rw [hmap]
    constructor
    · intro hset q rest' hbin' _
      rw [hbin] at hbin'
      cases hbin'
      exact hset
    · intro hmarked
      exact hmarked p rest hbin (hfit.trans ho.class_eq)
  | nil =>
    refine iff_of_true ?_ fun q rest hbin' => ?_
    · rcases ho.recycled with ⟨rest, hbin', -⟩ | hset
      · rw [hbin] at hbin'
        cases hbin'
      · rwa [hfit]
    · rw [hbin] at hbin'
      cases hbin'

/-! ### New chunks -/

/-- The request needs a new chunk: its size class has no free block, and the arena no room for one. -/
def NeedsChunk (h : XPHeap) (tid sz : Nat) : Prop :=
  h.bins tid (Kingsley.size2Class (requestSize sz)) = [] ∧ ((h.zones tid).arenaSpace = none ∨
    (h.zones tid).sizeRemaining < Kingsley.class2Size (Kingsley.size2Class (requestSize sz)) + 32)

/-- The size of a new chunk for a block of `size` bytes: whole pages for the arena and the block with its header and sentinels, but
    at least `USER_HEAP_CHUNK`. -/
def chunkSize (size : Nat) : Nat :=
  PageSize * (((if USER_HEAP_CHUNK < size + 32 then size + 32 else USER_HEAP_CHUNK) + XPHeap.arenaSize + PageSize - 1) / PageSize)

/-- What is cleared for a new chunk, the bits of eight times as many bytes, does not go past the end of the bitmap. -/
def BitmapReaches (h : XPHeap) (tid sz : Nat) : Prop :=
  NeedsChunk h tid sz → h.xheap.position + 8 * chunkSize (Kingsley.class2Size (Kingsley.size2Class (requestSize sz))) ≤
    USER_HEAP_BASE + USER_HEAP_SIZE

/-- The arena fails when it needs a new chunk and there is none. -/
theorem XPHeap.moreArena_error_iff {h : XPHeap} {e : Fault} : h.moreArena tid sz = .error e ↔
    ((h.zones tid).arenaSpace = none ∨ (h.zones tid).sizeRemaining < sz) ∧
      h.chunkMalloc ((if USER_HEAP_CHUNK < sz then sz else USER_HEAP_CHUNK) + XPHeap.arenaSize) = .error e := by
  simp only [XPHeap.moreArena]
  by_cases hneed : (h.zones tid).arenaSpace = none ∨ (h.zones tid).sizeRemaining < sz
  · rw [if_pos hneed, and_iff_right hneed]
    exact Except.bind_eq_error_iff (by simp)
  · rw [if_neg hneed]
    exact iff_of_false (by simp) fun h => hneed h.1

/-- The zone fails as the arena does, apart from faults of its own. -/
theorem XPHeap.zoneMalloc_error_iff {h : XPHeap} {e : Fault} (he : e ≠ .nullPointer) :
    h.zoneMalloc tid sz = .error e ↔ h.moreArena tid (MallocInfo.align sz) = .error e := by
  refine Except.bind_eq_error_iff fun h' herr => ?_
  cases harena : (h'.zones tid).arenaSpace with
  | none =>
    rw [harena, Except.error.injEq] at herr
    exact he herr.symm
  | some ptr =>
    rw [harena] at herr
    cases herr

theorem XPHeap.adaptMalloc_error_iff {h : XPHeap} {e : Fault} (he : e ≠ .assertion) :
    h.adaptMalloc tid sz = .error e ↔ h.zoneMalloc tid (sz + ObjectHeader.headerSize + 2 * SENTINEL_SIZE) = .error e := by
  refine Except.bind_eq_error_iff fun r herr => ?_
  dsimp only at herr
  by_cases hsize : ObjectHeader.getSize (SentinelMap.setupSentinels { r.2.map with mem := ObjectHeader.construct r.2.map.mem r.1 sz }
      (r.1 + ObjectHeader.headerSize) sz).mem (r.1 + ObjectHeader.headerSize) = sz
  · rw [if_pos hsize] at herr
    cases herr
  · rw [if_neg hsize, Except.error.injEq] at herr
    exact he herr.symm

/-- A size class without a free block fails as the arena does. -/
theorem XPHeap.segMalloc_error_iff {h : XPHeap} {e : Fault} (he : e ≠ .nullPointer ∧ e ≠ .assertion) (h₁ : 16 ≤ sz) (h₂ : sz ≤ 2 ^ 31) :
    h.segMalloc tid sz = .error e ↔ h.bins tid (Kingsley.size2Class sz) = [] ∧
      h.moreArena tid (Kingsley.class2Size (Kingsley.size2Class sz) + 32) = .error e := by
  obtain ⟨hc₁, hc₂, hle⟩ := Kingsley.size2Class_spec h₁ h₂
  have hs : BlockSize (Kingsley.class2Size (Kingsley.size2Class sz)) := ⟨_, hc₁, hc₂, rfl⟩
  obtain ⟨-, h16, -⟩ := hs.bounds
  have hmax : Kingsley.class2Size (Kingsley.size2Class sz) ≤ XPHeap.maxObjectSize := hs.bounds.2.2
  cases hbin : h.bins tid (Kingsley.size2Class sz) with
  | cons p rest =>
    obtain ⟨h', hok, -⟩ := XPHeap.segMalloc_recycled h₁ h₂ hbin
    rw [hok]
    exact iff_of_false nofun fun h => List.cons_ne_nil _ _ h.1
  | nil =>
    have halign : MallocInfo.align (Kingsley.class2Size (Kingsley.size2Class sz) + ObjectHeader.headerSize + 2 * SENTINEL_SIZE) =
        Kingsley.class2Size (Kingsley.size2Class sz) + 32 := by
      simp only [MallocInfo.align, MallocInfo.Alignment, ObjectHeader.headerSize, SENTINEL_SIZE, WORD_SIZE]
      omega
    have hadapt : h.segMalloc tid sz = h.adaptMalloc tid (Kingsley.class2Size (Kingsley.size2Class sz)) := by
      simp only [XPHeap.segMalloc]
      rw [if_neg (by omega), if_pos hmax, hbin]
    rw [hadapt, XPHeap.adaptMalloc_error_iff he.2, XPHeap.zoneMalloc_error_iff he.1, halign, and_iff_right rfl]

/-- With memory left for the pages, what is not in the bitmap is cleared where the bitmap does not reach. -/
theorem XPHeap.chunkMalloc_past_iff {h : XPHeap} (hmem : h.chunkMalloc sz ≠ .error .outOfMemory) :
    h.chunkMalloc sz = .error .pastBitmap ↔ ¬ ClearsInside h.xheap.position (PageSize * ((sz + PageSize - 1) / PageSize)) := by
  simp only [XPHeap.chunkMalloc] at hmem ⊢
  by_cases hrem : h.xheap.remaining < PageSize * ((sz + PageSize - 1) / PageSize)
  · rw [if_pos hrem] at hmem
    exact absurd rfl hmem
  rw [if_neg hrem]
  by_cases hinside : ClearsInside h.xheap.position (PageSize * ((sz + PageSize - 1) / PageSize))
  · rw [if_neg (not_not.mpr hinside)]
    refine iff_of_false ?_ (not_not.mpr hinside)
    cases h.map.cleanup h.xheap.position (PageSize * ((sz + PageSize - 1) / PageSize)) <;> rintro ⟨⟩
  · exact iff_of_true (if_pos hinside) hinside

/-- `realmalloc` runs out of memory, or of bitmap, where a new chunk does. -/
theorem XMemory.realmalloc_error_iff {e : Fault} (he : e ≠ .nullPointer ∧ e ≠ .assertion) (hsz : WithinLimit sz) :
    x.realmalloc tid sz = .error e ↔ NeedsChunk x.heap tid sz ∧
      x.heap.chunkMalloc ((if USER_HEAP_CHUNK < Kingsley.class2Size (Kingsley.size2Class (requestSize sz)) + 32 then
        Kingsley.class2Size (Kingsley.size2Class (requestSize sz)) + 32 else USER_HEAP_CHUNK) + XPHeap.arenaSize) = .error e := by
  obtain ⟨hr₁, hr₂, -, -⟩ := requestSize_bounds hsz
  rw [NeedsChunk, and_assoc, ← XPHeap.moreArena_error_iff, ← XPHeap.segMalloc_error_iff he hr₁ (by omega),
    ← XPHeap.malloc_request hr₁ hr₂, x.realmalloc_eq tid (by simp only [WithinLimit] at hsz; omega)]
  refine Except.bind_eq_error_iff fun r herr => ?_
  dsimp only at herr
  split at herr
  · cases herr
    exact he.1 rfl
  · split at herr
    · cases herr
      exact he.2 rfl
    · cases herr

/-- With memory left, the bits of a new chunk are cleared past the end of the bitmap where it does not reach. -/
theorem XMemory.realmalloc_past_iff (hi : HeapInv strict x.heap B) (hsz : WithinLimit sz) (hmem : x.realmalloc tid sz ≠ .error .outOfMemory) :
    x.realmalloc tid sz = .error .pastBitmap ↔ ¬ BitmapReaches x.heap tid sz := by
  rw [ne_eq, XMemory.realmalloc_error_iff (by decide) hsz, not_and] at hmem
  rw [XMemory.realmalloc_error_iff (by decide) hsz, BitmapReaches, Classical.not_imp]
  refine and_congr_right fun hneed => ?_
  have hstart := hi.start
  have hpage := hi.page
  rw [XPHeap.chunkMalloc_past_iff (hmem hneed), not_iff_not]
  exact clearsInside_iff hi.start hi.page (Nat.mul_mod_right ..)

/-! ### All sizes -/

/-- A size above the limit: the header in front of a null pointer is written. -/
theorem XMemory.realmalloc_null (x : XMemory) (tid : Nat) {sz : Nat} (hbig : ¬ WithinLimit sz) (hsz : sz + 15 < 2 ^ 64) :
    x.realmalloc tid sz = .error .nullPointer := by
  simp only [WithinLimit, not_le] at hbig
  have hnull : x.heap.malloc tid (requestSize sz) = .ok (0, x.heap) := by
    have hreq : 2 ^ 31 - 1 < requestSize sz := by
      simp only [requestSize]
      split <;> omega
    rw [XPHeap.malloc, if_neg (by omega), if_pos hreq]
  rw [x.realmalloc_eq tid hsz, Except.bind_of_ok hnull]
  rfl

/-- `realmalloc` returns a null pointer and leaves everything as it is, or it returns a block with room for the object, the size
    of the object in the header, and the guard behind the object set up and marked. -/
def Sized (x : XMemory) (tid sz : Nat) : Prop :=
  ∃ x' p, x.realmalloc tid sz = .ok (p, x') ∧
    (p = 0 ∧ x' = x ∨
      p ≠ 0 ∧ ObjectHeader.getObjectSize x'.heap.map.mem p = max sz 1 ∧ max sz 1 ≤ ObjectHeader.getSize x'.heap.map.mem p ∧
        GuardIntact x'.heap.map.mem p (ObjectHeader.getSize x'.heap.map.mem p) (max sz 1) ∧
        ∀ w, GuardWord p (ObjectHeader.getSize x'.heap.map.mem p) (max sz 1) w → x'.heap.map.isSet w = true)

theorem objectSize_eq (sz : Nat) : objectSize sz = max sz 1 := by
  unfold objectSize
  split <;> omega

namespace State

variable {s : State}

/-- With memory left, the answer is as it should be exactly if the size is at most 2^31 - 16, the object does not fill a recycled
    block whose last sentinel is unmarked, and the bitmap reaches for a new chunk when one is needed. -/
theorem realmalloc_sized_iff (h : Reachable system s) (tid sz : Nat)
    (hmem : s.rt.memory.realmalloc tid sz ≠ .error .outOfMemory) :
    Sized s.rt.memory tid sz ↔
      WithinLimit sz ∧ ExactFitMarked s.rt.memory.heap tid sz ∧ BitmapReaches s.rt.memory.heap tid sz := by
  obtain ⟨B, hm⟩ := reachable_inv h
  -- A null pointer is never returned.
  have hspec : WithinLimit sz → BitmapReaches s.rt.memory.heap tid sz → ∃ x' p, s.rt.memory.realmalloc tid sz = .ok (p, x') ∧ p ≠ 0 ∧
      ObjectHeader.getObjectSize x'.heap.map.mem p = objectSize sz ∧ objectSize sz ≤ ObjectHeader.getSize x'.heap.map.mem p ∧
      Guarded false x'.heap.map p (ObjectHeader.getSize x'.heap.map.mem p) := by
    intro hsz hreaches
    rcases XMemory.realmalloc_spec hm.heap hm.lists tid hsz nofun with herr | ⟨x', p, size, hok, ha⟩
    · exact absurd hreaches ((XMemory.realmalloc_past_iff hm.heap hsz hmem).mp (herr.resolve_left hmem))
    · have hB : Function.update B p (some ⟨size, .live⟩) p = some ⟨size, .live⟩ := Function.update_self ..
      have hlow := (ha.heap.placed hB).low
      simp only [USER_HEAP_BASE] at hlow
      have hblock := ha.heap.block hB
      have hguard := hblock.live rfl
      rw [← hblock.size] at hguard
      exact ⟨x', p, hok, by omega, ha.object, ha.object ▸ hguard.le, hguard⟩
  constructor
  · rintro ⟨x', p, hok, hgood⟩
    have hsz := XMemory.realmalloc_admitted hok
    have hreaches : BitmapReaches s.rt.memory.heap tid sz := by
      by_contra hnot
      rw [(XMemory.realmalloc_past_iff hm.heap hsz hmem).mpr hnot] at hok
      cases hok
    refine ⟨hsz, ?_, hreaches⟩
    obtain ⟨hblock, hclass, hbit⟩ := XMemory.realmalloc_class hm.heap hm.lists hsz hok
    by_cases hfull : ObjectHeader.getSize x'.heap.map.mem p = objectSize sz
    · refine (hbit hfull).mp ?_
      obtain ⟨x'', p', hok', hne, -⟩ := hspec hsz hreaches
      rw [hok, Except.ok.injEq, Prod.mk.injEq] at hok'
      obtain ⟨rfl, rfl⟩ := hok'
      obtain ⟨-, -, -, -, hmk⟩ := hgood.resolve_left fun hnull => hne hnull.1
      rw [← objectSize_eq, ← hfull] at hmk
      rw [← hfull]
      exact hmk _ ((guardWord_full hblock).mpr rfl)
    · intro q rest _ hfit
      exact absurd (hclass.trans hfit.symm) hfull
  · rintro ⟨hsz, hmarked, hreaches⟩
    obtain ⟨x', p, hok, hne, hobj, hle, hguard⟩ := hspec hsz hreaches
    obtain ⟨hblock, hclass, hbit⟩ := XMemory.realmalloc_class hm.heap hm.lists hsz hok
    refine ⟨x', p, hok, .inr ⟨hne, ?_⟩⟩
    rw [← objectSize_eq]
    refine ⟨hobj, hle, hobj ▸ hguard.intact, fun w hw => ?_⟩
    rcases hle.lt_or_eq with hlt | hfull
    · exact hguard.marked (.inr (hobj ▸ hlt)) w (hobj ▸ hw)
    · rw [hfull] at hw
      rw [(guardWord_full hblock).mp hw, ← hfull]
      exact (hbit hfull.symm).mpr hmarked

/-- No new chunk for an object of more than 2^29 bytes: its block has 2^30 bytes or more, and more bits would be cleared than the
    bitmap has. -/
theorem not_bitmapReaches_of_large (h : Reachable system s) {tid sz : Nat} (hneed : NeedsChunk s.rt.memory.heap tid sz)
    (hlarge : ¬ AdmittedSize sz) (hsz : WithinLimit sz) : ¬ BitmapReaches s.rt.memory.heap tid sz := by
  obtain ⟨B, hm⟩ := reachable_inv h
  have hstart := hm.heap.start
  obtain ⟨hr₁, hr₂, -, -⟩ := requestSize_bounds hsz
  obtain ⟨-, -, hclass⟩ := Kingsley.size2Class_spec hr₁ (by omega)
  have hreq : 2 ^ 29 < requestSize sz := by
    simp only [AdmittedSize, not_le] at hlarge
    simp only [requestSize]
    split <;> omega
  have hpow : 2 ^ 30 ≤ Kingsley.class2Size (Kingsley.size2Class (requestSize sz)) := by
    rw [Kingsley.class2Size] at hclass ⊢
    have hlt := (Nat.pow_lt_pow_iff_right (by decide : 1 < 2)).mp (hreq.trans_le hclass)
    exact Nat.pow_le_pow_right (by decide) hlt
  have hchunk : 2 ^ 30 < chunkSize (Kingsley.class2Size (Kingsley.size2Class (requestSize sz))) := by
    simp only [chunkSize, PageSize, USER_HEAP_CHUNK, XPHeap.arenaSize]
    split <;> omega
  intro hreaches
  have hfits := hreaches hneed
  simp only [USER_HEAP_SIZE] at hfits
  omega

theorem realmalloc_sized_five : Sized start.rt.memory 0 5 := by
  have hrun : (start.rt.memory.realmalloc 0 5).toOption.map Prod.fst = some 0x100000020 := by decide +kernel
  refine (realmalloc_sized_iff (.init start_initial) 0 5 fun herr => ?_).mpr ⟨?_, ?_, fun _ => by decide⟩
  · rw [herr] at hrun
    cases hrun
  · rw [WithinLimit]
    omega
  · intro p rest hbin
    cases hbin

/-- 2^31 bytes: the call does not return. -/
theorem large_size_crashes : ¬ ∀ s, Reachable system s → ∀ tid sz, sz < 2 ^ 63 →
    s.rt.memory.realmalloc tid sz ≠ .error .outOfMemory → Sized s.rt.memory tid sz := by
  intro h
  have hbig : ¬ WithinLimit (2 ^ 31) := by
    rw [WithinLimit]
    omega
  have hnull := XMemory.realmalloc_null start.rt.memory 0 hbig (by decide)
  obtain ⟨x', p, hok, -⟩ := h start (.init start_initial) 0 (2 ^ 31) (by decide) (by rw [hnull]; exact fun h => by cases h)
  exact hbig (XMemory.realmalloc_admitted hok)

end State

end DoubleTake
