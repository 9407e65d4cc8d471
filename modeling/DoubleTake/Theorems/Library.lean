import DoubleTake.Library
import DoubleTake.Theorems.Runs

/-! What `xxrealloc` keeps. A pointer into the heap has its size in its header; one into the buffer of `tempmalloc` has no
    header, and before the initialization `xxrealloc` does not even copy. -/

namespace DoubleTake

open SentinelMap XMemory Transition

variable {strict : Bool} {B : Layout} {r : Runtime}

/-- What is stored outside of the heap does not matter to it. -/
theorem MemoryInv.outside {live : List Nat} (h : MemoryInv strict r live B) {mem' : Mem}
    (hm : ∀ a, ¬ OutsideHeap a → mem' a = r.memory.heap.map.mem a) : MemoryInv strict (r.setMem mem') live B := by
  refine ⟨⟨h.heap.start, h.heap.page, h.heap.total, h.heap.wp, h.heap.placed, h.heap.apart, h.heap.zone, h.heap.zoneBlock,
    h.heap.zoneZone, fun {p b} hB => ?_, h.heap.covered⟩, h.lists, h.queues, h.checks⟩
  have hpl := h.heap.placed hB
  have hlow := hpl.low
  have hhigh := hpl.high
  have htotal := h.heap.total
  refine (h.heap.block hB).congr hpl (fun a h₁ h₂ => (hm a ?_).symm) fun _ _ _ _ => rfl
  unfold OutsideHeap
  omega

/-! ### Pointers and their sizes -/

/-- The application has the pointers `live`, with the sizes that it has asked for. -/
structure Held (r : Runtime) (live : List (Nat × Nat)) (B : Layout) : Prop where
  memory : MemoryInv false r (live.map Prod.fst) B
  sizes : ∀ x ∈ live, ObjectHeader.getObjectSize r.memory.heap.map.mem x.1 = objectSize x.2

theorem filter_map_erase {live : List (Nat × Nat)} (h : (live.map Prod.fst).Nodup) (p : Nat) :
    (live.filter (·.1 ≠ p)).map Prod.fst = (live.map Prod.fst).erase p := by
  rw [h.erase_eq_filter, List.filter_map]
  congr 2
  funext x
  simp [bne, beq_eq_decide]

section
variable {live : List (Nat × Nat)}

theorem Held.block (h : Held r live B) {x : Nat × Nat} (hx : x ∈ live) : ∃ size, B x.1 = some ⟨size, .live⟩ :=
  h.memory.lists.live (List.mem_map_of_mem hx)

/-- The objects that are spared keep their sizes. -/
theorem Held.size_spared (h : Held r live B) {p : Nat} {mem' : Mem} (hsp : Spares B p r.memory.heap.map.mem mem') {x : Nat × Nat}
    (hx : x ∈ live) (hne : x.1 ≠ p) : ObjectHeader.getObjectSize mem' x.1 = objectSize x.2 := by
  obtain ⟨size, hB⟩ := h.block hx
  have hlow := (h.memory.heap.placed hB).low
  simp only [USER_HEAP_BASE] at hlow
  rw [← h.sizes x hx]
  exact getObjectSize_congr ((hsp.bytes hB hne).mono (by omega) (by omega)) (by omega)

theorem Held.sizes_spared (h : Held r live B) {p : Nat} {mem' : Mem} (hsp : Spares B p r.memory.heap.map.mem mem') :
    ∀ x ∈ live.filter (·.1 ≠ p), ObjectHeader.getObjectSize mem' x.1 = objectSize x.2 := by
  intro x hx
  obtain ⟨hx, hne⟩ := List.mem_filter.mp hx
  exact h.size_spared hsp hx (of_decide_eq_true hne)

/-- A spared object keeps its bytes. -/
theorem Held.bytes_spared (h : Held r live B) {p : Nat} {mem' : Mem} (hsp : Spares B p r.memory.heap.map.mem mem') {x : Nat × Nat}
    (hx : x ∈ live) (hne : x.1 ≠ p) {i : Nat} (hi : i < x.2) : mem' (x.1 + i) = r.memory.heap.map.mem (x.1 + i) := by
  obtain ⟨size, hB⟩ := h.block hx
  have hle := ((h.memory.heap.block hB).live rfl).le
  rw [h.sizes x hx, objectSize, if_neg (by omega)] at hle
  dsimp only at hle
  exact (hsp.bytes hB hne _ (by omega) (by omega)).symm

/-- `malloc`, when the application has asked for `asked` bytes: an object has one byte at least. -/
theorem Held.malloc (h : Held r live B) (tid : Nat) {sz asked : Nat} (hsz : WithinLimit sz) (hask : objectSize sz = objectSize asked) :
    Spent (r.malloc tid sz) ∨
      ∃ r' p B', r.malloc tid sz = .ok (p, r') ∧ Held r' ((p, asked) :: live) B' := by
  rcases Runtime.malloc_spec h.memory tid hsz nofun with herr | ⟨r', p, size, hok, h', hnew, hobj, hconf⟩
  · exact .inl herr
  refine .inr ⟨r', p, _, hok, h', fun x hx => ?_⟩
  have hsp := Spares.update.mp (hconf.spares h'.heap (Function.update_self ..))
  rcases List.mem_cons.mp hx with rfl | hx
  · exact hobj.trans hask
  · obtain ⟨size', hB⟩ := h.block hx
    exact h.size_spared hsp hx fun heq => hnew size' (heq ▸ hB)

theorem Held.free (h : Held r live B) (tid : Nat) {p : Nat} (hp : p ∈ live.map Prod.fst) :
    ∃ r' B', r.free tid p = .ok r' ∧ Held r' (live.filter (·.1 ≠ p)) B' := by
  obtain ⟨r', B', size, hok, h', -, -, hkept⟩ := Runtime.free_spec h.memory hp tid
  refine ⟨r', B', hok, ?_, h.sizes_spared hkept.spares⟩
  rw [filter_map_erase h.memory.lists.liveNodup]
  exact h'

/-- `realloc` of an object: the pointer that it returns stands for the new size, the bytes that both sizes have are those of
    the object, and nothing else is changed. -/
structure Reallocated (B : Layout) (r r' : Runtime) (live : List (Nat × Nat)) (p q old sz : Nat) : Prop where
  held : ∃ B', Held r' ((q, sz) :: live.filter (·.1 ≠ p)) B'
  bytes : ∀ i < min old sz, r'.memory.heap.map.mem (q + i) = r.memory.heap.map.mem (p + i)
  spares : Spares B p r.memory.heap.map.mem r'.memory.heap.map.mem

theorem Held.realloc (h : Held r live B) (tid : Nat) {p old sz : Nat} (hp : (p, old) ∈ live) (hpos : 0 < sz) (hsz : WithinLimit sz) :
    Spent (r.realloc tid p sz) ∨ ∃ r' q, r.realloc tid p sz = .ok (q, r') ∧ Reallocated B r r' live p q old sz := by
  have hmem : p ∈ live.map Prod.fst := List.mem_map_of_mem hp
  have herase := filter_map_erase h.memory.lists.liveNodup p
  obtain ⟨size, hB⟩ := h.block hp
  have hobj : objectSize sz = sz := if_neg (by omega)
  by_cases hle : sz ≤ size
  · obtain ⟨r', hok, h', hconf, hsize, hagree⟩ := Runtime.realloc_inPlace h.memory hmem hB (by omega) hle tid
    have hsp := hconf.spares h.memory.heap hB
    refine .inr ⟨r', p, hok, ⟨B, ?_, ?_⟩, fun i hi => (hagree _ (by omega) (by omega)).symm, hsp⟩
    · rw [List.map_cons, herase]
      exact h'
    · exact List.forall_mem_cons.mpr ⟨hsize.trans hobj.symm, h.sizes_spared hsp⟩
  · rcases Runtime.realloc_move h.memory hmem hB hsz (by omega) tid nofun with
      herr | ⟨r', q, size', B', hok, h', -, -, -, hmoved⟩
    · exact .inl herr
    refine .inr ⟨r', q, hok, ⟨B', ?_, ?_⟩, fun i hi => hmoved.bytes i ?_, hmoved.spares⟩
    · rw [List.map_cons, herase]
      exact h'
    · exact List.forall_mem_cons.mpr ⟨hmoved.size.trans hobj.symm, h.sizes_spared hmoved.spares⟩
    · rw [h.sizes _ hp, objectSize, if_neg (by omega)]
      exact hi

/-- A write inside of an object. -/
theorem Held.write (h : Held r live B) {x : Nat × Nat} (hx : x ∈ live) {addr : Nat} (h₁ : x.1 ≤ addr) (h₂ : addr < x.1 + x.2)
    (value : UInt8) : Held (r.setMem (r.memory.heap.map.mem.set addr value)) live B := by
  obtain ⟨size, hB⟩ := h.block hx
  have hsize := h.sizes x hx
  rw [objectSize, if_neg (by omega)] at hsize
  have hsame : ∀ a, a < x.1 ∨ x.1 + x.2 ≤ a → r.memory.heap.map.mem.set addr value a = r.memory.heap.map.mem a :=
    fun a ha => Mem.set_of_ne (by omega)
  refine ⟨h.memory.write (List.mem_map_of_mem hx) (hsize ▸ hsame), fun y hy => ?_⟩
  obtain ⟨size', hB'⟩ := h.block hy
  have hlow := (h.memory.heap.placed hB').low
  simp only [USER_HEAP_BASE] at hlow
  rw [← h.sizes y hy]
  refine getObjectSize_congr (fun a ha₁ ha₂ => (hsame a ?_).symm) (by omega)
  have hle := ((h.memory.heap.block hB).live rfl).le
  rw [h.sizes x hx, objectSize, if_neg (by omega)] at hle
  dsimp only at hle
  by_cases hxy : y.1 = x.1
  · omega
  · have hapart := h.memory.heap.apart hB' hB hxy
    dsimp only at hapart
    omega

theorem Held.outside (h : Held r live B) {mem' : Mem} (hm : ∀ a, ¬ OutsideHeap a → mem' a = r.memory.heap.map.mem a) :
    Held (r.setMem mem') live B := by
  refine ⟨h.memory.outside hm, fun x hx => ?_⟩
  obtain ⟨size, hB⟩ := h.block hx
  have hlow := (h.memory.heap.placed hB).low
  have hhigh := (h.memory.heap.placed hB).high
  have htotal := h.memory.heap.total
  rw [← h.sizes x hx]
  refine getObjectSize_congr (fun a h₁ h₂ => (hm a ?_).symm) (by simp only [USER_HEAP_BASE] at hlow; omega)
  unfold OutsideHeap
  dsimp only at hhigh
  omega

end

/-! ### Runs -/

namespace Library

/-- The `int` that counts what is allocated in the buffer has room for another request. -/
def Counts (l : Library) (sz : Nat) : Prop := l.initialized = false → l.allocated + sz ≤ 2 ^ 31 - 16

/-- `xxrealloc` is called with pointers into the heap only, which are those that were returned after the initialization, and the
    count of the buffer does not overflow. -/
def ReallocsHeap (l : Library) : LibraryOp → Prop
  | .xxrealloc _ ptr sz => (ptr = 0 ∨ XMemory.inRange ptr = true) ∧ l.Counts sz
  | .xxmalloc _ sz => l.Counts sz
  | _ => True

structure Inv (l : Library) : Prop where
  held : ∃ B, Held l.rt l.live B
  early : ∀ x ∈ l.early, l.buf ≤ x.1 ∧ x.1 + x.2 ≤ l.buf + InitialMallocSize
  allocated : 0 ≤ l.allocated ∧ l.allocated ≤ InitialMallocSize
  buf : l.buf + InitialMallocSize ≤ USER_HEAP_BASE ∨ USER_HEAP_BASE + USER_HEAP_SIZE ≤ l.buf
  live : l.initialized = false → l.live = []

variable {l l' : Library}

/-- The buffer is not a part of the heap. -/
theorem not_inRange_of_buf {a : Nat} (hbuf : l.buf + InitialMallocSize ≤ USER_HEAP_BASE ∨ USER_HEAP_BASE + USER_HEAP_SIZE ≤ l.buf)
    (h₁ : l.buf ≤ a) (h₂ : a ≤ l.buf + InitialMallocSize) : XMemory.inRange a = false := by
  simp only [XMemory.inRange, Bool.and_eq_false_iff, decide_eq_false_iff_not]
  omega

theorem Inv.early_not_inRange (h : l.Inv) {a : Nat} (h₁ : l.buf ≤ a) (h₂ : a ≤ l.buf + InitialMallocSize) :
    XMemory.inRange a = false := not_inRange_of_buf h.buf h₁ h₂

theorem Inv.live_inRange (h : l.Inv) {x : Nat × Nat} (hx : x ∈ l.live) : XMemory.inRange x.1 = true := by
  obtain ⟨B, hB⟩ := h.held
  obtain ⟨size, hb⟩ := hB.block hx
  exact hB.memory.inRange hb

theorem Inv.live_ne_zero (h : l.Inv) {x : Nat × Nat} (hx : x ∈ l.live) : x.1 ≠ 0 := by
  intro h0
  have hin := h.live_inRange hx
  rw [h0] at hin
  cases hin

theorem Inv.initialized (h : l.Inv) {x : Nat × Nat} (hx : x ∈ l.live) : l.initialized = true := by
  by_contra hne
  rw [h.live (Bool.eq_false_of_not_eq_true hne)] at hx
  cases hx

/-- Of the pointers that the application has, those into the heap are the live ones. -/
theorem Inv.live_of_inRange (h : l.Inv) {x : Nat × Nat} (hx : x ∈ l.live ++ l.early) (hin : XMemory.inRange x.1 = true) :
    x ∈ l.live := by
  rcases List.mem_append.mp hx with hx | hx
  · exact hx
  · obtain ⟨h₁, h₂⟩ := h.early x hx
    rw [h.early_not_inRange h₁ (by omega)] at hin
    cases hin

/-- What a call makes of the heap, with the buffer as it was. -/
theorem Inv.called (h : l.Inv) (hinit : l.initialized = true) {rt : Runtime} {live : List (Nat × Nat)} (hh : ∃ B, Held rt live B) :
    Inv { l with rt := rt, live := live } :=
  ⟨hh, h.early, h.allocated, h.buf, fun hf => by rw [hinit] at hf; cases hf⟩

theorem Inv.tempmalloc (h : l.Inv) {sz asked p : Nat} (hsz : l.allocated + sz < 2 ^ 31) (hle : asked ≤ sz)
    (hok : l.tempmalloc sz = .ok (p, l')) : (l'.hold p asked).Inv := by
  obtain ⟨h₀, -⟩ := h.allocated
  unfold Library.tempmalloc at hok
  dsimp only at hok
  rw [toInt32_of_lt (x := sz) (by omega) (by omega), toInt32_of_lt (by omega) (by omega)] at hok
  split at hok
  · cases hok
  next hspace =>
    cases hok
    have hp : l.buf ≤ (l.buf + l.allocated).toNat ∧ (l.buf + l.allocated).toNat + asked ≤ l.buf + InitialMallocSize := by omega
    rw [hold, h.early_not_inRange hp.1 (by omega), if_neg Bool.false_ne_true]
    refine ⟨h.held, fun x hx => ?_, ⟨by dsimp only; omega, not_lt.mp hspace⟩, h.buf, h.live⟩
    rcases List.mem_cons.mp hx with rfl | hx
    · exact hp
    · exact h.early x hx

theorem drop_of_not_live {p : Nat} (h : ∀ x ∈ l.live, x.1 ≠ p) : l.drop p = l := by
  unfold drop
  rw [List.filter_eq_self.mpr fun x hx => decide_eq_true (h x hx)]

theorem tempmalloc_live {sz p : Nat} (h : l.tempmalloc sz = .ok (p, l')) : l'.live = l.live := by
  unfold Library.tempmalloc at h
  dsimp only at h
  split at h
  · cases h
  · cases h
    rfl

/-- A call on the heap returns a pointer into it. -/
theorem Inv.hold (h : l.Inv) (hinit : l.initialized = true) {rt : Runtime} {live : List (Nat × Nat)} {p sz : Nat} {B : Layout}
    (hh : Held rt ((p, sz) :: live) B) : (Library.hold { l with rt := rt, live := live } p sz).Inv := by
  obtain ⟨size, hB⟩ := hh.block List.mem_cons_self
  rw [Library.hold, hh.memory.inRange hB, if_pos rfl]
  exact h.called hinit ⟨B, hh⟩

theorem Inv.xxmalloc (h : l.Inv) (tid : Nat) {sz p : Nat} (hsz : sz ≤ 2 ^ 31 - 16) (hcount : l.Counts sz)
    (hok : l.xxmalloc tid sz = .ok (p, l')) : (l'.hold p sz).Inv := by
  unfold Library.xxmalloc at hok
  dsimp only at hok
  split at hok
  next hinit =>
    have hroom := hcount (Bool.eq_false_of_not_eq_true hinit)
    have hmax := h.allocated.2
    simp only [InitialMallocSize] at hmax
    refine h.tempmalloc ?_ ?_ hok <;> split <;> split <;> omega
  next hinit =>
    obtain ⟨B, hh⟩ := h.held
    have hask : objectSize (if sz = 0 then 1 else sz) = objectSize sz := by
      unfold objectSize
      split <;> simp_all
    have hadm : WithinLimit (if sz = 0 then 1 else sz) := by
      unfold WithinLimit
      split <;> omega
    rcases hh.malloc tid hadm hask with herr | ⟨r', q, B', hmal, h'⟩
    · exact absurd (hok ▸ herr.bind) not_spent_ok
    · rw [Except.bind_of_ok hmal] at hok
      cases hok
      exact h.hold (by simpa using hinit) h'

theorem Inv.xxfree (h : l.Inv) (tid : Nat) {p : Nat} (hp : ∃ x ∈ l.live ++ l.early, x.1 = p) (hok : l.xxfree tid p = .ok l') :
    (l'.drop p).Inv := by
  obtain ⟨x, hx, rfl⟩ := hp
  obtain ⟨B, hh⟩ := h.held
  by_cases hin : XMemory.inRange x.1 = true
  · have hmem := h.live_of_inRange hx hin
    have hinit := h.initialized hmem
    obtain ⟨r', B', hfree, h'⟩ := hh.free tid (List.mem_map_of_mem hmem)
    have hne : x.1 ≠ 0 := h.live_ne_zero hmem
    unfold Library.xxfree at hok
    rw [if_pos ⟨hinit, hne⟩, Except.bind_of_ok hfree] at hok
    cases hok
    exact h.called hinit ⟨B', h'⟩
  -- The buffer keeps what it has given out.
  · have hsame : l' = l := by
      unfold Library.xxfree at hok
      split at hok
      · rw [Runtime.free, if_pos hin] at hok
        cases hok
        rfl
      · cases hok
        rfl
    have hnot : ∀ y ∈ l.live, y.1 ≠ x.1 := fun y hy heq => hin (heq ▸ h.live_inRange hy)
    rw [hsame, drop_of_not_live hnot]
    exact h

/-- `xxrealloc` of a pointer into the heap. -/
theorem Inv.xxrealloc_heap (h : l.Inv) (tid : Nat) {p old sz : Nat} (hp : (p, old) ∈ l.live) (hpos : 0 < sz) (hsz : sz ≤ 2 ^ 31 - 16) :
    Spent (l.xxrealloc tid p sz) ∨
      ∃ B rt q, Held l.rt l.live B ∧ l.xxrealloc tid p sz = .ok (q, { l with rt := rt }) ∧ Reallocated B l.rt rt l.live p q old sz := by
  obtain ⟨B, hh⟩ := h.held
  have hrun : l.xxrealloc tid p sz = (l.rt.realloc tid p sz >>= fun x => .ok (x.1, { l with rt := x.2 })) := by
    unfold Library.xxrealloc
    rw [if_pos (h.initialized hp), if_neg fun hout => hout.2.2.1 (h.live_inRange hp)]
  rw [hrun]
  rcases hh.realloc tid hp hpos hsz with herr | ⟨r', q, hok, hre⟩
  · exact .inl herr.bind
  · exact .inr ⟨B, r', q, hh, Except.bind_of_ok hok, hre⟩

theorem Inv.xxrealloc (h : l.Inv) (tid : Nat) {p q sz : Nat} (hp : p = 0 ∨ ∃ x ∈ l.live ++ l.early, x.1 = p) (hsz : sz ≤ 2 ^ 31 - 16)
    (hguard : p = 0 ∨ XMemory.inRange p = true) (hcount : l.Counts sz) (hok : l.xxrealloc tid p sz = .ok (q, l')) :
    ((l'.drop p).hold q sz).Inv := by
  obtain ⟨B, hh⟩ := h.held
  by_cases h0 : p = 0
  -- Without an old object it is a `malloc`, in the buffer or in the heap.
  · subst h0
    have hnone : ∀ x ∈ l.live, x.1 ≠ 0 := fun _ => h.live_ne_zero
    unfold Library.xxrealloc at hok
    split at hok
    next hinit =>
      rw [if_neg (by simp), Runtime.realloc, if_pos rfl] at hok
      rcases hh.malloc tid hsz rfl with herr | ⟨r', q', B', hmal, h'⟩
      · exact absurd (hok ▸ herr.bind) not_spent_ok
      · rw [Except.bind_of_ok hmal] at hok
        cases hok
        rw [drop_of_not_live (l := { l with rt := r' }) hnone]
        exact h.hold hinit h'
    next hinit =>
      have hroom := hcount (Bool.eq_false_of_not_eq_true hinit)
      rw [drop_of_not_live (tempmalloc_live hok ▸ hnone)]
      exact h.tempmalloc (by omega) le_rfl hok
  obtain ⟨⟨_, old⟩, hx, rfl⟩ := hp.resolve_left h0
  have hmem := h.live_of_inRange hx (hguard.resolve_left h0)
  have hinit := h.initialized hmem
  rcases Nat.eq_zero_or_pos sz with rfl | hpos
  -- With size 0 the object is freed and one of a byte returned.
  · obtain ⟨r₁, B₁, hfree, h₁⟩ := hh.free tid (List.mem_map_of_mem hmem)
    have hone : WithinLimit 1 := by
      unfold WithinLimit
      omega
    have hask : objectSize 1 = objectSize 0 := rfl
    unfold Library.xxrealloc at hok
    rw [if_pos hinit, if_neg (by simp), Runtime.realloc, if_neg h0, if_pos rfl, Except.bind_of_ok hfree] at hok
    rcases h₁.malloc tid hone hask with herr | ⟨r', q', B', hmal, h'⟩
    · exact absurd (hok ▸ herr.bind) not_spent_ok
    · rw [Except.bind_of_ok hmal] at hok
      cases hok
      exact h.hold hinit h'
  · rcases h.xxrealloc_heap tid hmem hpos hsz with herr | ⟨B, rt, q', -, hre, hres⟩
    · exact absurd (hok ▸ herr) not_spent_ok
    · rw [hre] at hok
      cases hok
      obtain ⟨B', h'⟩ := hres.held
      exact h.hold hinit h'

theorem Inv.write (h : l.Inv) {addr : Nat} (hin : ∃ x ∈ l.live ++ l.early, x.1 ≤ addr ∧ addr < x.1 + x.2) (value : UInt8) :
    Inv { l with rt := l.rt.setMem (l.mem.set addr value) } := by
  obtain ⟨B, hh⟩ := h.held
  obtain ⟨x, hx, h₁, h₂⟩ := hin
  refine ⟨⟨B, ?_⟩, h.early, h.allocated, h.buf, h.live⟩
  rcases List.mem_append.mp hx with hx | hx
  · exact hh.write hx h₁ h₂ value
  · obtain ⟨h₃, h₄⟩ := h.early x hx
    have hbuf := h.buf
    refine hh.outside fun a ha => Mem.set_of_ne ?_
    rintro rfl
    refine ha ?_
    unfold OutsideHeap
    omega

theorem Inv.step (h : l.Inv) {o : LibraryOp} (ha : l.Admissible o) (hguard : l.ReallocsHeap o) (hok : l.exec o = .ok l') : l'.Inv := by
  cases o with
  | initializer =>
    cases hok
    exact ⟨h.held, h.early, h.allocated, h.buf, fun hf => by cases hf⟩
  | xxmalloc tid sz =>
    obtain ⟨⟨p, l₁⟩, hmal, hok⟩ := Except.of_bind_ok hok
    cases hok
    exact h.xxmalloc tid ha hguard hmal
  | xxrealloc tid ptr sz =>
    obtain ⟨⟨q, l₁⟩, hre, hok⟩ := Except.of_bind_ok hok
    cases hok
    exact h.xxrealloc tid ha.1 ha.2 hguard.1 hguard.2 hre
  | xxfree tid ptr =>
    obtain ⟨l₁, hfree, hok⟩ := Except.of_bind_ok hok
    cases hok
    exact h.xxfree tid ha hfree
  | write addr value =>
    cases hok
    exact h.write ha value
  | epochEnd current alive =>
    obtain ⟨B, hh⟩ := h.held
    obtain ⟨r', hend, h', hmap⟩ := Runtime.epochEnd_spec hh.memory current alive
    obtain ⟨rt, hend', hok⟩ := Except.of_bind_ok hok
    cases hok
    rw [hend, Except.ok.injEq] at hend'
    subst hend'
    refine h.called ha ⟨B, h', ?_⟩
    rw [hmap]
    exact hh.sizes

theorem loaded_inv (h : l.Loaded) : l.Inv := by
  obtain ⟨B, hm⟩ : State.Inv false ⟨l.rt, []⟩ := State.initial_inv h.state
  refine ⟨⟨B, ?_, ?_⟩, ?_, ?_, h.buf, fun _ => h.live⟩
  · rw [h.live]
    exact hm
  · rw [h.live]
    nofun
  · rw [h.early]
    nofun
  · rw [h.allocated]
    decide

theorem reachable_inv (h : Reachable (system.restrict ReallocsHeap) l) : l.Inv :=
  Reachable.invariant (S := system.restrict ReallocsHeap) (P := Inv) (fun _ => loaded_inv)
    (fun _ _ _ hi hs => hi.step hs.2.1 hs.1 hs.2.2) h

/-- The call returns a pointer to the bytes that the object has had, as many as both sizes have, and changes no other object, or the
    heap is used up. -/
def KeepsData (l : Library) (tid p old n : Nat) : Prop :=
  Spent (l.xxrealloc tid p n) ∨
    ∃ q l', l.xxrealloc tid p n = .ok (q, l') ∧ (∀ i < min old n, l'.mem (q + i) = l.mem (p + i)) ∧
      ∀ x ∈ l.live ++ l.early, x.1 ≠ p → ∀ i < x.2, l'.mem (x.1 + i) = l.mem (x.1 + i)

/-- In every run in which `xxrealloc` is called with pointers into the heap only and the count of the buffer does not overflow, such
    a call keeps the data. -/
theorem xxrealloc_keeps_data (h : Reachable (system.restrict ReallocsHeap) l) (tid : Nat) {p old n : Nat}
    (hp : (p, old) ∈ l.live ++ l.early) (hheap : XMemory.inRange p = true) (hpos : 0 < n) (hn : AdmittedSize n) :
    l.KeepsData tid p old n := by
  have hi := reachable_inv h
  rcases hi.xxrealloc_heap tid (hi.live_of_inRange hp hheap) hpos hn.withinLimit with herr | ⟨B, rt, q, hh, hok, hre⟩
  · exact .inl herr
  refine .inr ⟨q, _, hok, hre.bytes, fun x hx hne i hlt => ?_⟩
  rcases List.mem_append.mp hx with hx | hx
  · exact hh.bytes_spared hre.spares hx hne hlt
  · obtain ⟨h₁, h₂⟩ := hi.early x hx
    have hbuf := hi.buf
    refine hre.spares.outside _ ?_
    unfold OutsideHeap
    omega

/-- A process at its start, with the buffer below the heap. -/
def loaded : Library where
  rt := State.start.rt
  initialized := false
  buf := 0x1000000
  allocated := 0
  live := []
  early := []

theorem loaded_loaded : loaded.Loaded := ⟨State.start_initial, rfl, .inl (by decide), rfl, rfl, rfl⟩

/-- The state after a step that is admissible and returns. -/
def next (l : Library) (o : LibraryOp) : Option Library := if l.Admissible o then (l.exec o).toOption else none

theorem next_step {o : LibraryOp} (h : l.next o = some l') : system.step l o l' := by
  unfold next at h
  split at h
  next ha => exact ⟨ha, Except.of_toOption h⟩
  next => cases h

theorem xxrealloc_keeps_data_five : ∃ l, Reachable (system.restrict ReallocsHeap) l ∧ l.live = [(0x100000020, 5)] ∧
    l.mem 0x100000022 = 7 ∧ l.KeepsData 0 0x100000020 5 40 := by
  have hinit : next loaded .initializer = some { loaded with initialized := true } := rfl
  have hrun : (List.foldlM (fun (l : Library) o => if l.initialized then next l o else none) { loaded with initialized := true }
      [.xxmalloc 0 5, .write 0x100000022 7]).map (fun l => (l.live, l.mem 0x100000022)) = some ([(0x100000020, 5)], 7) := by
    decide +kernel
  obtain ⟨l, hl, heq⟩ := Option.map_eq_some_iff.mp hrun
  obtain ⟨hlive, hbyte⟩ := Prod.mk.inj heq
  have hr : Reachable (system.restrict ReallocsHeap) l := by
    refine .of_foldlM (fun s o t ho hs => ?_) (.step .initializer (.init loaded_loaded) ⟨trivial, next_step hinit⟩) hl
    split at hs
    next hs₀ =>
      refine ⟨?_, next_step hs⟩
      simp only [List.mem_cons, List.not_mem_nil, or_false] at ho
      rcases ho with rfl | rfl
      · exact fun hf => absurd (hf.symm.trans hs₀) Bool.false_ne_true
      · trivial
    next => cases hs
  have hp : (0x100000020, 5) ∈ l.live ++ l.early := List.mem_append_left _ (hlive ▸ List.mem_singleton_self _)
  exact ⟨l, hr, hlive, hbyte, xxrealloc_keeps_data hr 0 hp rfl (by decide) (show 40 ≤ 2 ^ 29 by decide)⟩

/-- Before the initialization `xxrealloc` returns new memory of the buffer and copies nothing. -/
theorem xxrealloc_early_loses_data : ¬ ∀ l, Reachable system l → ∀ tid p old n, (p, old) ∈ l.live ++ l.early → 0 < n →
    AdmittedSize n → l.KeepsData tid p old n := by
  intro h
  have hrun : (List.foldlM next loaded [.xxmalloc 0 16, .write 0x1000000 7]).map (fun l => (l.early, l.mem 0x1000000,
      (l.xxrealloc 0 0x1000000 32).toOption.map fun x => (x.1, x.2.mem x.1))) = some ([(0x1000000, 16)], 7, some (0x1000010, 0)) := by
    decide +kernel
  obtain ⟨l, hl, heq⟩ := Option.map_eq_some_iff.mp hrun
  obtain ⟨hearly, heq⟩ := Prod.mk.inj heq
  obtain ⟨hbyte, hre⟩ := Prod.mk.inj heq
  obtain ⟨⟨q, l'⟩, hok, hq⟩ := Option.map_eq_some_iff.mp hre
  have hok := Except.of_toOption hok
  have hr : Reachable system l := .of_foldlM (fun _ _ _ _ hs => next_step hs) (.init loaded_loaded) hl
  have hp : (0x1000000, 16) ∈ l.live ++ l.early := List.mem_append_right _ (hearly ▸ List.mem_singleton_self _)
  rcases h l hr 0 0x1000000 16 32 hp (by decide) (show 32 ≤ 2 ^ 29 by decide) with herr | ⟨q', l₁, hok', hbytes, -⟩
  · exact absurd (hok ▸ herr) not_spent_ok
  rw [hok, Except.ok.injEq, Prod.mk.injEq] at hok'
  obtain ⟨rfl, rfl⟩ := hok'
  have hfirst := hbytes 0 (by decide)
  rw [Nat.add_zero, Nat.add_zero, (Prod.mk.inj hq).2, hbyte] at hfirst
  cases hfirst

end Library

end DoubleTake
