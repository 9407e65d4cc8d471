import Mathlib.Data.List.Nodup
import DoubleTake.Memalign
import DoubleTake.Theorems.Marks

/-! Interior addresses. The process with its aligned objects is one without them, in which each of these is an object of `malloc`,
    with the words in front of the aligned addresses marked besides; so from inside of an object the search comes to its start. -/

namespace DoubleTake

open SentinelMap XMemory Transition

variable {B : Layout} {c : Runtime}

/-! ### The aligned address -/

namespace XMemory

/-- The mask goes down to a word address, by less than the boundary. -/
theorem and_boundaryMask {x boundary : Nat} (hx : x < 2 ^ 64) (h8 : boundary % 8 = 0) (hpos : 0 < boundary) (hlt : boundary < 2 ^ 64) :
    ∃ y, (BitVec.ofNat 64 x &&& boundaryMask boundary).toNat = y ∧ y % 8 = 0 ∧ y ≤ x ∧ x < y + boundary := by
  have hm : (BitVec.ofNat 64 boundary - 1#64).toNat = boundary - 1 := by
    rw [BitVec.toNat_sub, BitVec.toNat_ofNat, BitVec.toNat_ofNat]
    omega
  have hsum := Bits.and_not_add_and (BitVec.ofNat 64 x) (BitVec.ofNat 64 boundary - 1#64)
  have hle : (BitVec.ofNat 64 x &&& (BitVec.ofNat 64 boundary - 1#64)).toNat ≤ boundary - 1 := by
    rw [BitVec.toNat_and, hm]
    exact Nat.and_le_right
  have hmod := @Bits.and_not_mod_two_pow (BitVec.ofNat 64 x) (BitVec.ofNat 64 boundary - 1#64) 3 (by rw [hm]; omega)
  have hself : (BitVec.ofNat 64 x).toNat = x := by
    rw [BitVec.toNat_ofNat]
    omega
  rw [hself] at hsum
  refine ⟨_, rfl, hmod, ?_, ?_⟩ <;>
  · unfold boundaryMask
    omega

/-- The aligned address is a word address behind the pointer, at most the boundary away. -/
theorem alignedPtr_spec {ptr boundary : Nat} (hptr : ptr % 16 = 0) (h8 : boundary % 8 = 0) (hpos : 0 < boundary)
    (hlt : ptr + boundary < 2 ^ 64) :
    ∃ offset, alignedPtr ptr boundary = (ptr + offset, offset) ∧ offset ≤ boundary ∧ (ptr + offset) % 8 = 0 := by
  unfold alignedPtr getAlignedAddress
  by_cases hal : ptr % boundary = 0
  · rw [if_pos hal]
    refine ⟨boundary, ?_, le_rfl, by omega⟩
    dsimp only
    rw [if_pos (by omega), Nat.mod_eq_of_lt hlt]
  · rw [if_neg hal]
    obtain ⟨y, hy, hmod, hle, hgt⟩ := and_boundaryMask hlt h8 hpos (by omega)
    rw [hy]
    refine ⟨y - ptr, ?_, by omega, by omega⟩
    dsimp only
    rw [if_neg (by omega)]
    refine Prod.ext ?_ ?_ <;>
    · dsimp only
      omega

end XMemory

/-- `realloc` that returns touches no other object of the application. -/
theorem Runtime.realloc_ok {live : List Nat} {c' : Runtime} {p sz buf : Nat} (h : MemoryInv false c live B) (hp : p = 0 ∨ p ∈ live)
    {tid : Nat} (hok : c.realloc tid p sz = .ok (buf, c')) :
    ∃ B', MemoryInv false c' (buf :: live.erase p) B' ∧ Spares B p c.memory.heap.map.mem c'.memory.heap.map.mem := by
  have hadm : Moves c p sz → WithinLimit sz :=
    @State.limited_of_ok ⟨c, live⟩ ⟨c', buf :: live.erase p⟩ (.realloc tid p sz) (Except.bind_of_ok hok)
  rcases hp with rfl | hp
  · rw [Runtime.realloc, if_pos rfl] at hok
    obtain ⟨size, h', hnew, -, hsp⟩ := Runtime.malloc_ok h hok
    have hnot : 0 ∉ live := by
      intro h0
      obtain ⟨_, hB⟩ := h.lists.live h0
      have := (h.heap.placed hB).low
      omega
    rw [List.erase_of_not_mem hnot]
    exact ⟨_, h', hsp.of_new hnew⟩
  obtain ⟨size, hB⟩ := h.lists.live hp
  have hlow := (h.heap.placed hB).low
  have h0 : p ≠ 0 := by omega
  rcases Nat.eq_zero_or_pos sz with rfl | hpos
  · obtain ⟨c₁, B₁, size₁, hfree, h₁, -, -, hkept⟩ := Runtime.free_spec h hp tid
    rw [Runtime.realloc, if_neg h0, if_pos rfl, Except.bind_of_ok hfree] at hok
    obtain ⟨size₂, h₂, hnew, -, hsp⟩ := Runtime.malloc_ok h₁ hok
    refine ⟨_, h₂, hkept.spares.trans ((hsp.of_new hnew).of_keeps fun q size₃ hqp hq => hkept.live ?_)⟩
    rw [Function.update_of_ne hqp]
    exact hq
  · rcases Nat.lt_or_ge size sz with hgt | hle
    · have hmoves : Moves c p sz := .inr ⟨by omega, by rw [(h.heap.block hB).size]; exact hgt⟩
      rcases Runtime.realloc_move h hp hB (hadm hmoves) hgt tid (fun hs => absurd hs Bool.false_ne_true) with
        herr | ⟨c₁, q, size', B', hok', h', -, -, -, hmoved⟩
      · exact absurd (hok ▸ herr) not_spent_ok
      rw [hok, Except.ok.injEq, Prod.mk.injEq] at hok'
      obtain ⟨rfl, rfl⟩ := hok'
      exact ⟨B', h', hmoved.spares⟩
    · obtain ⟨c₁, hok', h', hconf, -⟩ := Runtime.realloc_inPlace h hp hB (by omega) hle tid
      rw [hok, Except.ok.injEq, Prod.mk.injEq] at hok'
      obtain ⟨rfl, rfl⟩ := hok'
      exact ⟨B, h', hconf.spares h.heap hB⟩

/-! ### The process without the marks -/

namespace AlignedObject

variable {m m' : Mem} {x : AlignedObject}

/-- What `memalign` has written, and where the object lies in its block. -/
structure Kept (m : Mem) (x : AlignedObject) : Prop where
  aligned : x.newptr % 8 = 0
  low : x.ptr + 16 ≤ x.newptr
  high : x.newptr + x.size ≤ x.ptr + ObjectHeader.getObjectSize m x.ptr
  marked : m.read (x.newptr - 8) 8 = MEMALIGN_SENTINEL_WORD
  origin : m.read (x.newptr - 16) 8 = x.ptr

theorem Kept.congr (h : Kept m x) (h16 : 16 ≤ x.ptr) (hheader : Mem.Agree m m' (x.ptr - 16) x.ptr)
    (hword : Mem.Agree m m' (x.newptr - 16) x.newptr) : Kept m' x := by
  have hlow := h.low
  have hobj : ObjectHeader.getObjectSize m' x.ptr = ObjectHeader.getObjectSize m x.ptr :=
    getObjectSize_congr (hheader.mono (by omega) (by omega)) h16
  refine ⟨h.aligned, hlow, ?_, ?_, ?_⟩
  · rw [hobj]
    exact h.high
  · rw [← h.marked]
    exact Mem.read_congr (hword.symm.mono (by omega) (by omega))
  · rw [← h.origin]
    exact Mem.read_congr (hword.symm.mono (by omega) (by omega))

/-- `free` takes the aligned address to the object that `malloc` has returned, and the mark goes. -/
theorem Kept.getObjectPtrAtFree {map : SentinelMap} (h : Kept map.mem x) :
    XMemory.getObjectPtrAtFree map x.newptr = (x.ptr, map.clear (x.newptr - WORD_SIZE)) := by
  have hmark : map.word (x.newptr - WORD_SIZE) = MEMALIGN_SENTINEL_WORD := h.marked
  have horigin : map.word (x.newptr - 2 * WORD_SIZE) = x.ptr := h.origin
  rw [XMemory.getObjectPtrAtFree, if_pos hmark, horigin]
  rfl

/-- The words of the block in front of the aligned address are written. -/
theorem Kept.written (h16 : 16 ≤ x.ptr) (hlt : x.ptr < 2 ^ 64) (haligned : x.newptr % 8 = 0) (hlow : x.ptr + 16 ≤ x.newptr)
    (hhigh : x.newptr + x.size ≤ x.ptr + ObjectHeader.getObjectSize m x.ptr) :
    Kept ((m.write (x.newptr - 8) 8 MEMALIGN_SENTINEL_WORD).write (x.newptr - 16) 8 x.ptr) x := by
  have hobj : ObjectHeader.getObjectSize ((m.write (x.newptr - 8) 8 MEMALIGN_SENTINEL_WORD).write (x.newptr - 16) 8 x.ptr) x.ptr =
      ObjectHeader.getObjectSize m x.ptr := by
    refine getObjectSize_congr (fun a h₁ h₂ => ?_) h16
    rw [Mem.write_of_lt (by omega), Mem.write_of_lt (by omega)]
  refine ⟨haligned, hlow, hobj ▸ hhigh, ?_, Mem.read_write_of_lt _ _ (by omega)⟩
  have hfront : Mem.Agree ((m.write (x.newptr - 8) 8 MEMALIGN_SENTINEL_WORD).write (x.newptr - 16) 8 x.ptr)
      (m.write (x.newptr - 8) 8 MEMALIGN_SENTINEL_WORD) (x.newptr - 8) (x.newptr - 8 + 8) :=
    fun a h₁ _ => Mem.write_of_ge (by omega)
  rw [Mem.read_congr hfront]
  exact Mem.read_write_of_lt _ _ (by decide)

end AlignedObject

namespace AlignedState

open AlignedObject

variable {s t : AlignedState} {x : AlignedObject} {p : Nat}

/-- The items that `memalign` has marked. -/
def marks (aligned : List AlignedObject) (item : Nat) : Prop := ∃ x ∈ aligned, item = getIndex (x.newptr - WORD_SIZE)

/-- The process `c` has the objects of `s` and those under its aligned objects, and it lacks the marks of `memalign`. -/
structure Shadow (c : Runtime) (B : Layout) (s : AlignedState) : Prop where
  memory : MemoryInv false c (s.live ++ s.aligned.map (·.ptr)) B
  plus : Runtime.Plus (marks s.aligned) c s.rt
  kept : ∀ x ∈ s.aligned, Kept c.memory.heap.map.mem x

def Inv (s : AlignedState) : Prop := ∃ c B, Shadow c B s

theorem Shadow.mem (h : Shadow c B s) : s.mem = c.memory.heap.map.mem := h.plus.map.mem

theorem Shadow.keeps (h : Shadow c B s) (hx : x ∈ s.aligned) : Kept s.rt.memory.heap.map.mem x := by
  rw [h.plus.map.mem]
  exact h.kept x hx

theorem Shadow.block (h : Shadow c B s) (hx : x ∈ s.aligned) : ∃ size, B x.ptr = some ⟨size, .live⟩ :=
  h.memory.lists.live (List.mem_append_right _ (List.mem_map_of_mem hx))

/-- Where an aligned object lies. -/
theorem Shadow.bounds (h : Shadow c B s) (hx : x ∈ s.aligned) {size : Nat} (hB : B x.ptr = some ⟨size, .live⟩) :
    USER_HEAP_BASE + 32 ≤ x.ptr ∧ x.ptr + 16 ≤ x.newptr ∧ x.newptr + x.size ≤ x.ptr + size ∧ x.newptr % 8 = 0 ∧
      x.ptr + size + 16 ≤ c.memory.heap.xheap.position := by
  have hle := ((h.memory.heap.block hB).live rfl).le
  have hk := h.kept x hx
  have hhigh := hk.high
  dsimp only at hle
  exact ⟨(h.memory.heap.placed hB).low, hk.low, by omega, hk.aligned, (h.memory.heap.placed hB).high⟩

/-- The word that is marked for an aligned object. -/
theorem Shadow.heapWord (h : Shadow c B s) (hx : x ∈ s.aligned) : HeapWord (x.newptr - WORD_SIZE) := by
  obtain ⟨size, hB⟩ := h.block hx
  obtain ⟨h₁, h₂, -, h₃, -⟩ := h.bounds hx hB
  simp only [HeapWord, WORD_SIZE]
  omega

/-- The pointers are all different. -/
theorem Shadow.ptr_ne (h : Shadow c B s) (hp : p ∈ s.live) (hx : x ∈ s.aligned) : x.ptr ≠ p := by
  rintro rfl
  exact List.disjoint_of_nodup_append h.memory.lists.liveNodup hp (List.mem_map_of_mem hx)

theorem Shadow.ptr_inj (h : Shadow c B s) {y : AlignedObject} (hx : x ∈ s.aligned) (hy : y ∈ s.aligned) (heq : y.ptr = x.ptr) : y = x :=
  List.inj_on_of_nodup_map (List.nodup_append.mp h.memory.lists.liveNodup).2.1 hy hx heq

theorem Shadow.ptr_ne_zero (h : Shadow c B s) (hx : x ∈ s.aligned) : x.ptr ≠ 0 := by
  obtain ⟨size, hB⟩ := h.block hx
  have := (h.memory.heap.placed hB).low
  omega

theorem Shadow.within (h : Shadow c B s) {l : List AlignedObject} (hl : ∀ x ∈ l, x ∈ s.aligned ∧ x.ptr ≠ p) : Within (marks l) B p := by
  rintro _ ⟨x, hxl, rfl⟩
  obtain ⟨hx, hne⟩ := hl x hxl
  obtain ⟨size, hB⟩ := h.block hx
  obtain ⟨h₁, h₂, h₃, -⟩ := h.bounds hx hB
  exact ⟨x.ptr, size, _, hne, hB, h.heapWord hx, by simp only [WORD_SIZE]; omega, by simp only [WORD_SIZE]; omega, rfl⟩

theorem Shadow.skipped (h : Shadow c B s) : Skipped (marks s.aligned) c.memory.heap.map := by
  rintro _ ⟨x, hx, rfl⟩
  rw [item_getIndex (h.heapWord hx)]
  exact (h.kept x hx).marked

/-- The object of another block is not touched. -/
theorem Shadow.spared (h : Shadow c B s) (hx : x ∈ s.aligned) {m' : Mem} (hsp : Spares B p c.memory.heap.map.mem m') (hne : x.ptr ≠ p) :
    Kept m' x := by
  obtain ⟨size, hB⟩ := h.block hx
  obtain ⟨h₁, h₂, h₃, -⟩ := h.bounds hx hB
  have hbytes := hsp.bytes hB hne
  exact (h.kept x hx).congr (by omega) (hbytes.mono (by omega) (by omega)) (hbytes.mono (by omega) (by omega))

/-- From inside of the objects the search comes to their starts. -/
theorem Shadow.find (h : Shadow c B s) {a : Nat} (hp : p ∈ s.live ++ s.aligned.map (·.ptr)) (h₁ : p ≤ a)
    (h₂ : a < p + ObjectHeader.getObjectSize c.memory.heap.map.mem p) : s.rt.memory.heap.map.findObjectStartAddr a = some p := by
  obtain ⟨size, hB⟩ := h.memory.lists.live hp
  rw [h.plus.map.findObjectStartAddr h.skipped]
  exact h.memory.heap.findObjectStartAddr_inside hB h₁ h₂

/-! ### Steps -/

theorem filter_gives {o : Op} (h : ∀ x ∈ s.aligned, gives o x = false) : (s.aligned.filter fun x => !gives o x) = s.aligned :=
  List.filter_eq_self.mpr fun x hx => by rw [h x hx]; rfl

/-- A new object of `malloc`. -/
theorem Shadow.malloc (h : Shadow c B s) {tid sz : Nat} {rt : Runtime} (hok : s.rt.malloc tid sz = .ok (p, rt)) :
    ∃ c' B', Shadow c' B' ⟨⟨rt, p :: s.live⟩, s.aligned⟩ ∧ ObjectHeader.getObjectSize c'.memory.heap.map.mem p = objectSize sz ∧
      WithinLimit sz := by
  have hw : Within (marks s.aligned) B 0 := h.within fun x hx => ⟨hx, h.ptr_ne_zero hx⟩
  obtain ⟨⟨q, c'⟩, hc, heq, hp⟩ := (h.plus.malloc hw h.memory.heap tid sz).of_ok' hok
  dsimp only at heq hp
  subst heq
  obtain ⟨size, h', hnew, hobj, hsp⟩ := Runtime.malloc_ok h.memory hc
  refine ⟨c', _, ⟨h', hp, fun x hx => h.spared hx hsp ?_⟩, hobj, Runtime.malloc_admitted hc⟩
  obtain ⟨size', hB⟩ := h.block hx
  exact fun heq => hnew size' (heq ▸ hB)

/-- The word in front of an aligned object is not marked in the process without the marks. -/
theorem Shadow.unmarked (h : Shadow c B s) (hx : x ∈ s.aligned) : c.memory.heap.map.bitmap.isBitSet (getIndex (x.newptr - WORD_SIZE)) = false := by
  obtain ⟨size, hB⟩ := h.block hx
  obtain ⟨h₁, h₂, -, h₃, -⟩ := h.bounds hx hB
  have hhigh := (h.kept x hx).high
  have hal := (h.memory.heap.placed hB).aligned
  refine (h.memory.heap.block hB).gap (h.memory.heap.placed hB) (h.heapWord hx) (by simp only [WORD_SIZE]; omega) ?_
  simp only [guardStart, WORD_SIZE]
  omega

/-- An aligned object is put into an object of `malloc`. -/
theorem Shadow.memalign (h : Shadow c B s) {live : List Nat} (hlive : s.live = x.ptr :: live) (haligned : x.newptr % 8 = 0)
    (hlow : x.ptr + 16 ≤ x.newptr) (hhigh : x.newptr + x.size ≤ x.ptr + ObjectHeader.getObjectSize c.memory.heap.map.mem x.ptr) :
    ∃ c', Shadow c' B ⟨⟨s.rt.setMap ((s.rt.memory.heap.map.setMemalignSentinelAt (x.newptr - WORD_SIZE)).store
      (x.newptr - 2 * WORD_SIZE) x.ptr), live⟩, x :: s.aligned⟩ := by
  have hmem : x.ptr ∈ s.live ++ s.aligned.map (·.ptr) := by
    rw [hlive]
    exact List.mem_cons_self
  obtain ⟨size, hB⟩ := h.memory.lists.live hmem
  have hle := ((h.memory.heap.block hB).live rfl).le
  have hbase := (h.memory.heap.placed hB).low
  have htop := (h.memory.heap.placed hB).high
  have htotal := h.memory.heap.total
  dsimp only at hle htop
  simp only [USER_HEAP_BASE, USER_HEAP_SIZE] at hbase htotal
  generalize hmap : (c.memory.heap.map.store (x.newptr - WORD_SIZE) MEMALIGN_SENTINEL_WORD).store (x.newptr - 2 * WORD_SIZE) x.ptr = map
  have hold : map.mem = (c.memory.heap.map.mem.write (x.newptr - 8) 8 MEMALIGN_SENTINEL_WORD).write (x.newptr - 16) 8 x.ptr := by
    rw [← hmap]
    rfl
  have hout : ∀ a, a < x.newptr - 16 ∨ x.newptr ≤ a → map.mem a = c.memory.heap.map.mem a := by
    rintro a (ha | ha)
    · rw [hold, Mem.write_of_lt (by omega), Mem.write_of_lt (by omega)]
    · rw [hold, Mem.write_of_ge (by omega), Mem.write_of_ge (by omega)]
  have hnew : Kept map.mem x := by
    rw [hold]
    exact Kept.written (by omega) (by omega) haligned hlow hhigh
  have hconf : Confined c.memory.heap.map { c.memory.heap.map with mem := map.mem } x.ptr size :=
    ⟨fun a ha => hout a (by omega), fun _ _ _ => rfl⟩
  have hsp : Spares B x.ptr c.memory.heap.map.mem map.mem := hconf.spares h.memory.heap hB
  have hwrite : MemoryInv false (c.setMap map) (s.live ++ s.aligned.map (·.ptr)) B := by
    have hw := h.memory.write hmem fun a ha => hout a (by omega)
    rw [← hmap] at hw ⊢
    exact hw
  refine ⟨c.setMap map, hwrite.of_subset ?_ fun p hp => ?_, h.plus.setMap ?_, fun y hy => ?_⟩
  · have hnd := h.memory.lists.liveNodup
    rw [hlive, List.cons_append] at hnd
    exact List.nodup_middle.mpr hnd
  · rw [hlive]
    simpa [or_left_comm] using hp
  · rw [← hmap]
    exact ((h.plus.map.store _ _).mark fun item => by simp [marks]).store _ _
  · rcases List.mem_cons.mp hy with rfl | hy
    · exact hnew
    · exact h.spared hy hsp (h.ptr_ne (hlive ▸ List.mem_cons_self) hy)

/-- What `memalign` does with the object that it gets from `malloc`. -/
theorem Shadow.memalign_malloc (h : Shadow c B s) {tid boundary sz ptr : Nat} {rt₁ : Runtime} (h8 : boundary % 8 = 0) (hpos : 0 < boundary)
    (hlt : boundary + sz < 2 ^ 64) (hmal : s.rt.malloc tid (boundary + sz) = .ok (ptr, rt₁)) :
    ptr % 16 = 0 ∧ ptr + boundary < 2 ^ 64 ∧ ∃ offset, alignedPtr ptr boundary = (ptr + offset, offset) ∧ offset ≤ boundary ∧
      (offset < 16 → s.rt.memalign tid boundary sz = .error .assertion) ∧
      (16 ≤ offset → ∃ rt c' B', s.rt.memalign tid boundary sz = .ok (ptr + offset, rt) ∧
        ObjectHeader.getObjectSize rt.memory.heap.map.mem ptr = boundary + sz ∧
        Shadow c' B' ⟨⟨rt, s.live⟩, ⟨ptr, ptr + offset, sz⟩ :: s.aligned⟩) := by
  obtain ⟨c', B', h', hobj, hadm⟩ := h.malloc hmal
  obtain ⟨size, hB⟩ := h'.memory.lists.live (List.mem_append_left _ List.mem_cons_self)
  have hal := (h'.memory.heap.placed hB).aligned
  have hhigh := (h'.memory.heap.placed hB).high
  have htotal := h'.memory.heap.total
  dsimp only at hhigh
  simp only [USER_HEAP_BASE, USER_HEAP_SIZE] at htotal
  unfold WithinLimit at hadm
  rw [objectSize, if_neg (by omega)] at hobj
  obtain ⟨offset, haligned, hle, hmod⟩ := alignedPtr_spec hal h8 hpos (by omega)
  have hcall : s.rt.memalign tid boundary sz = if offset < 16 then .error .assertion else
      .ok (ptr + offset, rt₁.setMap ((rt₁.memory.heap.map.setMemalignSentinelAt (ptr + offset - WORD_SIZE)).store
        (ptr + offset - 2 * WORD_SIZE) ptr)) := by
    rw [← Nat.mod_eq_of_lt hlt] at hmal
    rw [Runtime.memalign, Except.bind_of_ok hmal]
    dsimp only
    rw [haligned]
    simp only [WORD_SIZE, hpos.ne', false_or, Nat.reduceMul]
  refine ⟨hal, by omega, offset, haligned, hle, fun hsmall => by rw [hcall, if_pos hsmall], fun hge => ?_⟩
  obtain ⟨c₂, h₂⟩ := h'.memalign (x := ⟨ptr, ptr + offset, sz⟩) rfl hmod (by dsimp only; omega) (by dsimp only; omega)
  refine ⟨_, c₂, B', by rw [hcall, if_neg (by omega)], ?_, h₂⟩
  -- The header of the object is in front of the two words.
  have hlow := (h'.memory.heap.placed hB).low
  rw [← hobj, ← h'.mem]
  refine getObjectSize_congr (m := rt₁.memory.heap.map.mem) (fun a h₁ h₂ => ?_) (by omega)
  exact ((Mem.write_of_lt (by simp only [WORD_SIZE]; omega)).trans (Mem.write_of_lt (by simp only [WORD_SIZE]; omega))).symm

theorem Shadow.memalign_step (h : Shadow c B s) {tid boundary sz : Nat} (h8 : boundary % 8 = 0) (hlt : boundary + sz < 2 ^ 64)
    (hok : s.exec (.memalign tid boundary sz) = .ok t) : t.Inv := by
  obtain ⟨⟨ptr, rt₁⟩, hmal, hrest⟩ := Except.of_bind_ok hok
  obtain ⟨⟨newptr, rt⟩, hmem, hres⟩ := Except.of_bind_ok hrest
  cases hres
  have hpos : 0 < boundary := by
    rw [Runtime.memalign, Except.bind_of_ok hmal] at hmem
    dsimp only at hmem
    split at hmem
    · cases hmem
    next hnot =>
      have := (not_or.mp hnot).1
      omega
  rw [Nat.mod_eq_of_lt hlt] at hmal
  obtain ⟨-, -, offset, -, -, hsmall, hlarge⟩ := h.memalign_malloc h8 hpos hlt hmal
  rcases Nat.lt_or_ge offset 16 with hoff | hoff
  · rw [hsmall hoff] at hmem
    cases hmem
  · obtain ⟨rt', c', B', hok', -, h'⟩ := hlarge hoff
    rw [hmem, Except.ok.injEq, Prod.mk.injEq] at hok'
    obtain ⟨rfl, rfl⟩ := hok'
    exact ⟨c', B', h'⟩

/-- A call on an object that is not one of `memalign`. -/
theorem Shadow.realloc_step (h : Shadow c B s) {tid sz : Nat} (hp : p = 0 ∨ p ∈ s.live)
    (hok : s.exec (.op (.realloc tid p sz)) = .ok t) : t.Inv := by
  obtain ⟨u, hexec, hres⟩ := Except.of_bind_ok hok
  obtain ⟨⟨buf, rt⟩, hre, hu⟩ := Except.of_bind_ok hexec
  cases hu
  cases hres
  have hne : ∀ x ∈ s.aligned, x.ptr ≠ p := by
    intro x hx
    rcases hp with rfl | hp
    · exact h.ptr_ne_zero hx
    · exact h.ptr_ne hp hx
  have hp' : p = 0 ∨ p ∈ s.live ++ s.aligned.map (·.ptr) := hp.imp_right (List.mem_append_left _)
  have herase : (s.live ++ s.aligned.map (·.ptr)).erase p = s.live.erase p ++ s.aligned.map (·.ptr) := by
    rw [List.erase_append]
    split
    · rfl
    next hnot =>
      rw [List.erase_of_not_mem hnot, List.erase_of_not_mem]
      intro hmem
      obtain ⟨x, hx, heq⟩ := List.mem_map.mp hmem
      exact hne x hx heq
  obtain ⟨⟨q, c'⟩, hc, heq, hplus⟩ := (h.plus.realloc (h.within fun x hx => ⟨hx, hne x hx⟩) h.memory hp' tid sz).of_ok' hre
  dsimp only at heq hplus
  subst heq
  obtain ⟨B', h', hsp⟩ := Runtime.realloc_ok h.memory hp' hc
  rw [herase] at h'
  rw [filter_gives fun _ _ => rfl]
  exact ⟨c', B', h', hplus, fun x hx => h.spared hx hsp (hne x hx)⟩

theorem Shadow.free_step (h : Shadow c B s) {tid : Nat} (hp : p ∈ s.live) (hok : s.exec (.op (.free tid p)) = .ok t) : t.Inv := by
  obtain ⟨u, hexec, hres⟩ := Except.of_bind_ok hok
  obtain ⟨rt, hfree, hu⟩ := Except.of_bind_ok hexec
  cases hu
  cases hres
  have hp' : p ∈ s.live ++ s.aligned.map (·.ptr) := List.mem_append_left _ hp
  obtain ⟨size, hB⟩ := h.memory.lists.live hp'
  have hgives : ∀ x ∈ s.aligned, gives (.free tid p) x = false := by
    intro x hx
    refine beq_eq_false_iff_ne.mpr ?_
    rintro rfl
    have hfirst := (h.memory.heap.block hB).first
    rw [(h.kept x hx).marked] at hfirst
    cases hfirst
  obtain ⟨c', hc, hplus⟩ := (h.plus.free (h.within fun x hx => ⟨hx, h.ptr_ne hp hx⟩) h.memory hB tid).of_ok' hfree
  obtain ⟨c₁, B', size', hc₁, h', -, -, hkept⟩ := Runtime.free_spec h.memory hp' tid
  rw [hc, Except.ok.injEq] at hc₁
  subst hc₁
  rw [List.erase_append_left _ hp] at h'
  rw [filter_gives hgives]
  exact ⟨c', B', h', hplus, fun x hx => h.spared hx hkept.spares (h.ptr_ne hp hx)⟩

/-- The application gives an aligned object back. -/
theorem Shadow.free_aligned (h : Shadow c B s) {tid : Nat} (hx : x ∈ s.aligned) {rt : Runtime} (hok : s.rt.free tid x.newptr = .ok rt) :
    Inv ⟨⟨rt, s.live⟩, s.aligned.filter fun y => !(y.newptr == x.newptr)⟩ := by
  generalize hl : (s.aligned.filter fun y => !(y.newptr == x.newptr)) = l
  have hmem : ∀ y, y ∈ l ↔ y ∈ s.aligned ∧ y.newptr ≠ x.newptr := by
    intro y
    rw [← hl, List.mem_filter, Bool.not_eq_true', beq_eq_false_iff_ne]
  have hother : ∀ y ∈ l, y ∈ s.aligned ∧ y.ptr ≠ x.ptr := by
    intro y hy
    obtain ⟨hys, hne⟩ := (hmem y).mp hy
    refine ⟨hys, fun heq => hne ?_⟩
    rw [h.ptr_inj hx hys heq]
  obtain ⟨size, hB⟩ := h.block hx
  obtain ⟨h₁, h₂, h₃, -, h₅⟩ := h.bounds hx hB
  have hk := h.kept x hx
  have htotal := h.memory.heap.total
  have hin : inRange x.newptr = true := by
    simp only [inRange, Bool.and_eq_true, decide_eq_true_eq]
    have := hk.high
    omega
  rw [Runtime.free_eq hin (h.keeps hx).getObjectPtrAtFree] at hok
  -- The mark goes, so the process without the marks stays as it is.
  have hplus : Runtime.Plus (marks l) c (s.rt.setMap (s.rt.memory.heap.map.clear (x.newptr - WORD_SIZE))) := by
    refine h.plus.setMap (h.plus.map.unmark (fun item => ?_) (h.unmarked hx))
    constructor
    · rintro ⟨y, hy, rfl⟩
      obtain ⟨hys, hne⟩ := (hmem y).mp hy
      refine ⟨fun heq => hne ?_, y, hys, rfl⟩
      have hword := (getIndex_eq_iff (h.heapWord hys) (h.heapWord hx)).mp heq
      have hlow := (h.kept y hys).low
      have hlow' := hk.low
      have hpos := h.ptr_ne_zero hys
      simp only [WORD_SIZE] at hword
      omega
    · rintro ⟨hne, y, hys, rfl⟩
      refine ⟨y, (hmem y).mpr ⟨hys, fun heq => hne ?_⟩, rfl⟩
      rw [heq]
  obtain ⟨c', hc, hplus'⟩ := (hplus.release (h.within hother) h.memory hB tid).of_ok' hok
  have hp : x.ptr ∈ s.live ++ s.aligned.map (·.ptr) := List.mem_append_right _ (List.mem_map_of_mem hx)
  obtain ⟨c₁, B', size', hc₁, h', -, -, hkept⟩ := Runtime.free_spec h.memory hp tid
  rw [Runtime.free_eq (h.memory.inRange hB) (getObjectPtrAtFree_first (h.memory.heap.block hB).first), Runtime.setMap_self, hc,
    Except.ok.injEq] at hc₁
  subst hc₁
  refine ⟨c', B', h'.of_subset ?_ fun q hq => ?_, hplus', fun y hy => h.spared (hother y hy).1 hkept.spares (hother y hy).2⟩
  · refine h.memory.lists.liveNodup.sublist ((List.Sublist.refl _).append ?_)
    rw [← hl]
    exact List.filter_sublist.map _
  · rcases List.mem_append.mp hq with hq | hq
    · exact (List.mem_erase_of_ne (h.ptr_ne hq hx).symm).mpr (List.mem_append_left _ hq)
    · obtain ⟨y, hy, rfl⟩ := List.mem_map.mp hq
      exact (List.mem_erase_of_ne (hother y hy).2).mpr (List.mem_append_right _ (List.mem_map_of_mem (hother y hy).1))

/-- A write into an object, behind the words of `memalign` when it is aligned. -/
theorem Shadow.write (h : Shadow c B s) (hp : p ∈ s.live ++ s.aligned.map (·.ptr)) {addr : Nat} (h₁ : p ≤ addr)
    (h₂ : addr < p + ObjectHeader.getObjectSize c.memory.heap.map.mem p) (hbehind : ∀ x ∈ s.aligned, x.ptr = p → x.newptr ≤ addr)
    (value : UInt8) : Inv ⟨⟨s.rt.setMem (s.mem.set addr value), s.live⟩, s.aligned⟩ := by
  obtain ⟨size, hB⟩ := h.memory.lists.live hp
  have hle := ((h.memory.heap.block hB).live rfl).le
  dsimp only at hle
  have hconf : Confined c.memory.heap.map { c.memory.heap.map with mem := c.memory.heap.map.mem.set addr value } p size :=
    ⟨fun a ha => Mem.set_of_ne (by omega), fun _ _ _ => rfl⟩
  have hout : ∀ a, a < p ∨ p + ObjectHeader.getObjectSize c.memory.heap.map.mem p ≤ a →
      c.memory.heap.map.mem.set addr value a = c.memory.heap.map.mem a := fun a ha => Mem.set_of_ne (by omega)
  have hw := h.memory.write hp hout
  rw [h.mem]
  refine ⟨_, B, hw, h.plus.setMem _, fun x hx => ?_⟩
  by_cases hxp : x.ptr = p
  · obtain ⟨size', hB'⟩ := h.block hx
    have hbase := (h.memory.heap.placed hB').low
    have hlow := (h.kept x hx).low
    have hge := hbehind x hx hxp
    exact (h.kept x hx).congr (by omega) (fun a _ _ => (Mem.set_of_ne (by omega)).symm) fun a _ _ => (Mem.set_of_ne (by omega)).symm
  · exact h.spared hx (hconf.spares h.memory.heap hB) hxp

theorem Inv.exec (h : s.Inv) {o : AlignedOp} (hfits : s.Fits o) (ha : s.Admissible o) (hok : s.exec o = .ok t) : t.Inv := by
  obtain ⟨c, B, h⟩ := h
  cases o with
  | memalign tid boundary sz => exact h.memalign_step hfits.1 hfits.2 hok
  | op o =>
    cases o with
    | malloc tid sz =>
      obtain ⟨u, hexec, hres⟩ := Except.of_bind_ok hok
      obtain ⟨⟨ptr, rt⟩, hmal, hu⟩ := Except.of_bind_ok hexec
      cases hu
      cases hres
      obtain ⟨c', B', h', -⟩ := h.malloc hmal
      rw [filter_gives fun _ _ => rfl]
      exact ⟨c', B', h'⟩
    | realloc tid ptr sz =>
      rcases ha with hp | ⟨x, -, hx⟩
      · exact h.realloc_step hp hok
      · exact hx.elim
    | free tid ptr =>
      by_cases hp : ptr ∈ s.live
      · exact h.free_step hp hok
      · rcases ha with hp' | ⟨x, hx, rfl⟩
        · exact absurd hp' hp
        obtain ⟨u, hexec, hres⟩ := Except.of_bind_ok hok
        obtain ⟨rt, hfree, hu⟩ := Except.of_bind_ok hexec
        cases hu
        cases hres
        rw [List.erase_of_not_mem hp]
        exact h.free_aligned hx hfree
    | write addr value =>
      cases hok
      rw [filter_gives fun _ _ => rfl]
      rcases ha with ⟨p, hp, hin⟩ | ⟨x, hx, hin⟩
      · unfold State.InObject at hin
        rw [h.mem] at hin
        exact h.write (List.mem_append_left _ hp) hin.1 hin.2 (fun x hx heq => absurd heq (h.ptr_ne hp hx)) value
      · obtain ⟨hge, hlt⟩ := hin
        have hlow := (h.kept x hx).low
        have hhigh := (h.kept x hx).high
        refine h.write (List.mem_append_right _ (List.mem_map_of_mem hx)) (by omega) (by omega) (fun y hy heq => ?_) value
        rw [h.ptr_inj hx hy heq]
        exact hge
    | epochEnd current alive =>
      obtain ⟨u, hexec, hres⟩ := Except.of_bind_ok hok
      obtain ⟨rt, hend, hu⟩ := Except.of_bind_ok hexec
      cases hu
      cases hres
      obtain ⟨c', rt', hc, hrt, hplus⟩ := h.plus.epochEnd h.skipped h.memory current alive
      obtain ⟨c₁, hc₁, h', hmap⟩ := Runtime.epochEnd_spec h.memory current alive
      rw [hend, Except.ok.injEq] at hrt
      rw [hc, Except.ok.injEq] at hc₁
      subst hrt hc₁
      rw [filter_gives fun _ _ => rfl]
      exact ⟨c', B, h', hplus, fun x hx => hmap ▸ h.kept x hx⟩

theorem initial_inv (h : s.toState.Initial) (haligned : s.aligned = []) : s.Inv := by
  refine ⟨s.rt, fun _ => none, ?_, ⟨_, ⟨rfl, rfl, fun item => ?_⟩, rfl⟩, ?_⟩
  · rw [haligned, List.map_nil, List.append_nil]
    exact State.initial_memoryInv h
  · simp [marks, haligned]
  · simp [haligned]

/-- From every address of a live object the search comes to the start of the object, and from every address of an object of
    `memalign` to the start of its block, in every run in which `memalign` is asked for a boundary of whole words and for a size
    that does not overflow. -/
theorem interior_resolves (h : Reachable (system.restrict Fits) s) :
    (∀ ptr ∈ s.live, ∀ addr, s.InObject ptr addr → s.rt.memory.heap.map.findObjectStartAddr addr = some ptr) ∧
      ∀ x ∈ s.aligned, ∀ addr, x.newptr ≤ addr → addr < x.newptr + x.size →
        s.rt.memory.heap.map.findObjectStartAddr addr = some x.ptr := by
  obtain ⟨c, B, hs⟩ : s.Inv := Reachable.invariant (S := system.restrict Fits) (P := Inv) (fun _ h₀ => initial_inv h₀.1 h₀.2)
    (fun _ _ _ hi hstep => hi.exec hstep.1 hstep.2.1 hstep.2.2) h
  refine ⟨fun ptr hp addr hin => ?_, fun x hx addr h₁ h₂ => ?_⟩
  · unfold State.InObject at hin
    rw [hs.mem] at hin
    exact hs.find (List.mem_append_left _ hp) hin.1 hin.2
  · have hlow := (hs.kept x hx).low
    have hhigh := (hs.kept x hx).high
    exact hs.find (List.mem_append_right _ (List.mem_map_of_mem hx)) (by omega) (by omega)

/-- A first call of `memalign`. -/
theorem memalign_first {boundary sz : Nat} {x : AlignedObject} {addr : Nat} {found : Option Nat}
    (hrun : (exec ⟨State.start, []⟩ (.memalign 0 boundary sz)).toOption.map
      (fun t => (t.aligned, t.rt.memory.heap.map.findObjectStartAddr addr)) = some ([x], found)) :
    ∃ t, exec ⟨State.start, []⟩ (.memalign 0 boundary sz) = .ok t ∧ x ∈ t.aligned ∧
      t.rt.memory.heap.map.findObjectStartAddr addr = found := by
  obtain ⟨t, hopt, heq⟩ := Option.map_eq_some_iff.mp hrun
  obtain ⟨haligned, hfound⟩ := Prod.mk.inj heq
  exact ⟨t, Except.of_toOption hopt, haligned ▸ List.mem_singleton_self x, hfound⟩

theorem interior_resolves_ten : ∃ t, exec ⟨State.start, []⟩ (.memalign 0 64 10) = .ok t ∧
    t.rt.memory.heap.map.findObjectStartAddr 0x100000049 = some 0x100000020 := by
  obtain ⟨t, hok, hx, -⟩ := @memalign_first 64 10 ⟨0x100000020, 0x100000040, 10⟩ 0x100000049 (some 0x100000020) (by decide +kernel)
  have hr : Reachable (system.restrict Fits) t :=
    .step (.memalign 0 64 10) (.init ⟨State.start_initial, rfl⟩) ⟨⟨by decide, by decide⟩, ⟨by decide, by decide⟩, hok⟩
  exact ⟨t, hok, (interior_resolves hr).2 _ hx _ (by decide) (by decide)⟩

/-- The size that `memalign` asks `malloc` for overflows: the object is larger than its block, and the search from inside of it
    comes to the sentinel behind the block. -/
theorem overflowing_memalign_misses : ¬ ∀ s, Reachable system s →
    (∀ ptr ∈ s.live, ∀ addr, s.InObject ptr addr → s.rt.memory.heap.map.findObjectStartAddr addr = some ptr) ∧
      ∀ x ∈ s.aligned, ∀ addr, x.newptr ≤ addr → addr < x.newptr + x.size →
        s.rt.memory.heap.map.findObjectStartAddr addr = some x.ptr := by
  intro h
  obtain ⟨t, hok, hx, hfound⟩ := @memalign_first 16 (2 ^ 64 - 1) ⟨0x100000020, 0x100000030, 2 ^ 64 - 1⟩ 0x100000038
    (some 0x100000038) (by decide +kernel)
  have hr : Reachable system t :=
    .step (.memalign 0 16 (2 ^ 64 - 1)) (.init ⟨State.start_initial, rfl⟩) ⟨⟨by decide, by decide⟩, hok⟩
  have hstart := (h t hr).2 _ hx 0x100000038 (by decide) (by decide)
  rw [hfound] at hstart
  cases hstart

end AlignedState

end DoubleTake
