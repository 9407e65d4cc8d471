import DoubleTake.Theorems.Scan
import DoubleTake.Theorems.Free

/-! Whole runs of the normal phase: the invariant holds in every state that is reached, no check ever finds
    anything, and the guard words of the live objects are marked. -/

namespace DoubleTake

open SentinelMap XMemory Transition

variable {strict : Bool} {B : Layout} {r : Runtime} {live : List Nat}

/-! ### Writes and allocation -/

/-- A write into a live object. -/
theorem MemoryInv.write (h : MemoryInv strict r live B) {p : Nat} (hp : p ∈ live) {mem' : Mem}
    (hm : ∀ a, a < p ∨ p + ObjectHeader.getObjectSize r.memory.heap.map.mem p ≤ a → mem' a = r.memory.heap.map.mem a) :
    MemoryInv strict (r.setMem mem') live B := by
  obtain ⟨size, hB⟩ := h.lists.live hp
  obtain ⟨hok, hconf⟩ := (h.heap.block hB).write (h.heap.placed hB) hm
  have hi' := h.heap.update hB (r.setMem mem').memory.heap rfl rfl h.heap.wp hconf hok
  have hsame : Function.update B p (some ⟨size, .live⟩) = B := by
    rw [← hB]
    exact Function.update_eq_self p B
  rw [hsame] at hi'
  exact ⟨hi', h.lists, h.queues, h.checks⟩

/-- `malloc` with a size below the limit. -/
theorem Runtime.malloc_spec (h : MemoryInv strict r live B) (tid : Nat) {sz : Nat} (hsz : WithinLimit sz)
    (hstrict : strict = true → ExactFitMarked r.memory.heap tid sz) :
    Spent (r.malloc tid sz) ∨
      ∃ r' p size, r.malloc tid sz = .ok (p, r') ∧ MemoryInv strict r' (p :: live) (Function.update B p (some ⟨size, .live⟩)) ∧
        (∀ size', B p ≠ some ⟨size', .live⟩) ∧ ObjectHeader.getObjectSize r'.memory.heap.map.mem p = objectSize sz ∧
        Confined r.memory.heap.map r'.memory.heap.map p size := by
  rcases XMemory.realmalloc_spec h.heap h.lists tid hsz hstrict with herr | ⟨x', p, size, hok, ha⟩
  · exact .inl herr.bind
  · refine .inr ⟨{ r with memory := x' }, p, size, Except.bind_of_ok hok, ⟨ha.heap, ha.lists, h.queues, ?_⟩, ?_, ha.object,
      ha.confined⟩
    · dsimp only
      rw [ha.memory]
      exact h.checks
    · intro size' hlive
      rcases ha.before with hnone | ⟨t, hfree⟩
      · rw [hnone] at hlive
        cases hlive
      · cases (Layout.unique hfree hlive).2

theorem Runtime.malloc_admitted {r' : Runtime} {tid sz p : Nat} (h : r.malloc tid sz = .ok (p, r')) : WithinLimit sz := by
  cases hm : r.memory.realmalloc tid sz with
  | error e =>
    rw [Runtime.malloc, Except.bind_of_error hm] at h
    cases h
  | ok res => exact XMemory.realmalloc_admitted hm

/-- `malloc` that returns. -/
theorem Runtime.malloc_ok (h : MemoryInv false r live B) {r' : Runtime} {tid sz p : Nat} (hok : r.malloc tid sz = .ok (p, r')) :
    ∃ size, MemoryInv false r' (p :: live) (Function.update B p (some ⟨size, .live⟩)) ∧ (∀ size', B p ≠ some ⟨size', .live⟩) ∧
      ObjectHeader.getObjectSize r'.memory.heap.map.mem p = objectSize sz ∧
      Spares B p r.memory.heap.map.mem r'.memory.heap.map.mem := by
  rcases Runtime.malloc_spec h tid (Runtime.malloc_admitted hok) (fun hs => absurd hs Bool.false_ne_true) with
    herr | ⟨r₁, q, size, hok', h', hnew, hobj, hconf⟩
  · exact absurd (hok ▸ herr) not_spent_ok
  rw [hok, Except.ok.injEq, Prod.mk.injEq] at hok'
  obtain ⟨rfl, rfl⟩ := hok'
  exact ⟨size, h', hnew, hobj, Spares.update.mp (hconf.spares h'.heap (Function.update_self ..))⟩

/-! ### Reallocation -/

/-- The call needs a block for `sz` bytes: there is none yet, or the one there is too small. -/
def Moves (r : Runtime) (ptr sz : Nat) : Prop :=
  ptr = 0 ∨ sz ≠ 0 ∧ ObjectHeader.getSize r.memory.heap.map.mem ptr < sz

/-- Setting size and guard of an object leaves the object itself. -/
theorem newObject_inside {map : SentinelMap} {p size sz a : Nat} (hle : sz ≤ size) (hsize : size < 2 ^ 64) (hp : p % 16 = 0) (hlow : 16 ≤ p)
    (h₁ : p ≤ a) (h₂ : a < p + sz) : (newObject map p size sz).mem a = map.mem a := by
  rw [newObject, setSentinels_below hle hsize (by omega) h₂]
  exact setObjectSize_outside hlow (by omega)

/-- A block of the allocator gets an object: its size and guard are set, and the application has the pointer. -/
theorem MemoryInv.newObject (h : MemoryInv strict r live B) {p size sz : Nat} (hB : B p = some ⟨size, .taken⟩)
    (hpos : 0 < sz) (hle : sz ≤ size) :
    MemoryInv strict (r.setMap (newObject r.memory.heap.map p size sz)) (p :: live)
        (Function.update B p (some ⟨size, .live⟩)) ∧
      Confined r.memory.heap.map (DoubleTake.newObject r.memory.heap.map p size sz) p size ∧
      ObjectHeader.getObjectSize (DoubleTake.newObject r.memory.heap.map p size sz).mem p = sz := by
  obtain ⟨hok, hconf, hobj⟩ := (h.heap.block hB).newObject (h.heap.placed hB) (fun hu => by cases hu) hpos hle
  have hd := h.lists.detached (.inr ⟨size, hB⟩)
  have hi := h.heap.update hB (r.setMap (DoubleTake.newObject r.memory.heap.map p size sz)).memory.heap
    rfl rfl (setSentinels_wp.trans h.heap.wp) hconf hok
  have hl := (h.lists.assign hd (some ⟨size, .live⟩)).consLive hd (Function.update_self ..)
  exact ⟨⟨hi, hl, h.queues, h.checks⟩, hconf, hobj⟩

/-- `realloc` within the block: the guard is taken down and put up again for the new size. -/
theorem Runtime.realloc_inPlace (h : MemoryInv strict r live B) {p size sz : Nat} (hp : p ∈ live)
    (hB : B p = some ⟨size, .live⟩) (hsz : sz ≠ 0) (hle : sz ≤ size) (tid : Nat) :
    ∃ r', r.realloc tid p sz = .ok (p, r') ∧ MemoryInv strict r' (p :: live.erase p) B ∧
      Confined r.memory.heap.map r'.memory.heap.map p size ∧
      ObjectHeader.getObjectSize r'.memory.heap.map.mem p = sz ∧
      Mem.Agree r.memory.heap.map.mem r'.memory.heap.map.mem p (p + sz) := by
  have hpl := h.heap.placed hB
  have hlow := hpl.low
  have hmax := hpl.size.bounds.2.2
  dsimp only at hmax
  simp only [USER_HEAP_BASE] at hlow
  have hsize : ObjectHeader.getSize r.memory.heap.map.mem p = size := (h.heap.block hB).size
  have hclean : Confined r.memory.heap.map (r.checked p size).memory.heap.map p size := by
    rw [Runtime.checked_map]
    exact ((h.heap.block hB).clean hpl).2
  have hcheck : r.checkObject p = .ok (false, r.checked p size) := Runtime.checkObject_spec h hB
  have hmem := Runtime.checked_mem r p size
  have hc := h.checked hp hB
  generalize r.checked p size = r₁ at hclean hcheck hmem hc
  obtain ⟨h', hconf, hobj⟩ := hc.newObject (Function.update_self ..) (by omega) hle
  have hsame : Function.update B p (some ⟨size, .live⟩) = B := by
    rw [← hB]
    exact Function.update_eq_self p B
  rw [Function.update_idem, hsame] at h'
  refine ⟨r₁.setMap (newObject r₁.memory.heap.map p size sz), ?_, h', hclean.trans hconf, hobj, fun a h₁ h₂ => ?_⟩
  · rw [Runtime.realloc, if_neg (by omega), if_neg hsz]
    dsimp only
    rw [hsize, if_pos hle, Except.bind_of_ok hcheck]
    rfl
  · have hnew : (newObject r₁.memory.heap.map p size sz).mem a = r₁.memory.heap.map.mem a :=
      newObject_inside hle (by omega) hpl.aligned (by omega) h₁ h₂
    rw [hmem] at hnew
    exact hnew.symm

/-- A copy into an object that is large enough. -/
theorem MemoryInv.copyInto {buf size : Nat} (h : MemoryInv strict r (buf :: live) B)
    (hle : size ≤ ObjectHeader.getObjectSize r.memory.heap.map.mem buf) (p : Nat) :
    MemoryInv strict (r.setMem (r.memory.heap.map.mem.copy buf r.memory.heap.map.mem p size)) (buf :: live) B := by
  refine h.write List.mem_cons_self fun a ha => ?_
  simp only [Mem.copy]
  exact if_neg (by omega)

/-- The object has been copied from `p` to `buf`, where its size is `sz`. -/
structure Moved (B : Layout) (mem mem' : Mem) (p buf sz : Nat) : Prop where
  size : ObjectHeader.getObjectSize mem' buf = sz
  bytes : ∀ i < min (ObjectHeader.getObjectSize mem p) sz, mem' (buf + i) = mem (p + i)
  spares : Spares B p mem mem'

/-- `realloc` into a new block: the bytes are copied and the old object is freed. -/
theorem Runtime.realloc_move (h : MemoryInv strict r live B) {p size sz : Nat} (hp : p ∈ live)
    (hB : B p = some ⟨size, .live⟩) (hsz : WithinLimit sz) (hgt : size < sz) (tid : Nat)
    (hstrict : strict = true → ExactFitMarked r.memory.heap tid sz) :
    Spent (r.realloc tid p sz) ∨
      ∃ r' buf size' B', r.realloc tid p sz = .ok (buf, r') ∧ MemoryInv strict r' (buf :: live.erase p) B' ∧
        B' buf = some ⟨size', .live⟩ ∧ B.Grows B' ∧ (∀ w, HeapWord w → ¬ InBlock p size w → ¬ InBlock buf size' w →
          r'.memory.heap.map.isSet w = r.memory.heap.map.isSet w) ∧
        Moved B r.memory.heap.map.mem r'.memory.heap.map.mem p buf sz := by
  have hpl := h.heap.placed hB
  have hlow := hpl.low
  simp only [USER_HEAP_BASE] at hlow
  have hsize : ObjectHeader.getSize r.memory.heap.map.mem p = size := (h.heap.block hB).size
  rw [Runtime.realloc, if_neg (by omega), if_neg (by omega)]
  dsimp only
  rw [hsize, if_neg (by omega)]
  rcases Runtime.malloc_spec h tid hsz hstrict with herr | ⟨r₁, buf, size', hok, h₁, hnew, hobj, hconf⟩
  · exact .inl herr.bind
  refine .inr ?_
  rw [Except.bind_of_ok hok]
  dsimp only
  generalize hmin : (if ObjectHeader.getObjectSize r.memory.heap.map.mem p < sz then
    ObjectHeader.getObjectSize r.memory.heap.map.mem p else sz) = minSize
  have hminle : minSize ≤ sz := by
    split at hmin <;> omega
  have hroom : minSize ≤ ObjectHeader.getObjectSize r₁.memory.heap.map.mem buf := by
    rw [hobj, objectSize, if_neg (by omega)]
    exact hminle
  have h₂ := h₁.copyInto hroom p
  obtain ⟨r₃, B₃, size₃, hfree, h₃, hB₃, hbits, hkept⟩ := Runtime.free_spec h₂ (List.mem_cons_of_mem _ hp) tid
  have hne : buf ≠ p := fun heq => hnew size (heq ▸ hB)
  rw [Function.update_of_ne hne.symm, hB] at hB₃
  cases hB₃
  have hbuf : Function.update (Function.update B buf (some ⟨size', .live⟩)) p (some ⟨size, .taken⟩) buf = some ⟨size', .live⟩ := by
    rw [Function.update_of_ne hne, Function.update_self]
  have herase : (buf :: live).erase p = buf :: live.erase p := by
    rw [List.erase_cons_tail]
    simpa using hne
  rw [herase] at h₃
  refine ⟨r₃, buf, size', B₃, Except.bind_of_ok hfree, h₃, hkept.live hbuf,
    ((Layout.grows_update B _ _).trans (Layout.grows_update _ _ _)).trans hkept.blocks,
    fun w hw hout hout' => (hbits w hw hout).trans (hconf.inBlock hw hout'), ?_⟩
  have hself : Function.update B buf (some ⟨size', .live⟩) buf = some ⟨size', .live⟩ := Function.update_self ..
  have hle : ObjectHeader.getObjectSize r₁.memory.heap.map.mem buf ≤ size' := ((h₁.heap.block hself).live rfl).le
  have hlow' := (h₁.heap.placed hself).low
  simp only [USER_HEAP_BASE] at hlow'
  rw [hobj, objectSize, if_neg (by omega)] at hle
  have hcopy : Confined r₁.memory.heap.map
      (r₁.setMem (r₁.memory.heap.map.mem.copy buf r₁.memory.heap.map.mem p minSize)).memory.heap.map buf size' :=
    ⟨fun a ha => if_neg (by omega), fun _ _ _ => rfl⟩
  -- The allocation and the copy change the new block only, and the old objects are not touched by the free.
  have hbefore : Spares B buf r.memory.heap.map.mem (r₁.memory.heap.map.mem.copy buf r₁.memory.heap.map.mem p minSize) :=
    Spares.update.mp ((hconf.spares h₁.heap hself).trans (hcopy.spares h₁.heap hself))
  have hafter := hkept.bytes hbuf
  have hagree := (Spares.update.mp (hconf.spares h₁.heap hself)).bytes hB hne.symm
  refine ⟨?_, fun i hi => ?_, fun {q size₄} hq hqp => ?_, fun a ha => ?_⟩
  · have hcopied : ObjectHeader.getObjectSize (r₁.memory.heap.map.mem.copy buf r₁.memory.heap.map.mem p minSize) buf = sz := by
      refine (getObjectSize_congr (fun a h₁ h₂ => ?_) (by omega)).trans (hobj.trans (if_neg (by omega)))
      exact (if_neg (by omega)).symm
    exact (getObjectSize_congr (hafter.mono (by omega) (by omega)) (by omega)).trans hcopied
  · have hleold := ((h.heap.block hB).live rfl).le
    have hmineq : minSize = min (ObjectHeader.getObjectSize r.memory.heap.map.mem p) sz := by
      rw [← hmin]
      split <;> omega
    rw [← hmineq] at hi
    dsimp only at hleold
    calc r₃.memory.heap.map.mem (buf + i)
        = r₁.memory.heap.map.mem.copy buf r₁.memory.heap.map.mem p minSize (buf + i) := (hafter _ (by omega) (by omega)).symm
      _ = r₁.memory.heap.map.mem (p + i) := by
        rw [Mem.copy, if_pos (by omega), Nat.add_sub_cancel_left]
      _ = r.memory.heap.map.mem (p + i) := (hagree _ (by omega) (by omega)).symm
  · have hqbuf : q ≠ buf := fun heq => hnew size₄ (heq ▸ hq)
    refine (hbefore.bytes hq hqbuf).trans (hkept.spares.bytes ?_ hqp)
    rwa [Function.update_of_ne hqbuf]
  · exact (hkept.outside a ha).trans (hbefore.outside a ha)

/-! ### The end of an epoch -/

/-- The backward search from a word goes by what the nearest marked word below it holds. -/
theorem SentinelMap.findObjectStartAddr_nearest {map : SentinelMap} {v w : Nat} (hv : HeapWord v) (hw : HeapWord w) (hlt : v < w)
    (hset : map.isSet v = true) (hgap : ∀ x, HeapWord x → v < x → x < w → map.isSet x = false) : ∃ fuel,
    map.findObjectStartAddr w = if map.word v = SENTINEL_WORD then some (v + SENTINEL_SIZE)
      else if map.word v = MEMALIGN_SENTINEL_WORD then map.findObjectStartFrom fuel (getIndex v) else none := by
  obtain ⟨hv₁, hv₂⟩ := hv
  obtain ⟨hw₁, hw₂⟩ := hw
  have hindex : getIndex v < getIndex w := by
    simp only [getIndex, WORD_SIZE]
    omega
  have hlast : map.bitmap.getLastBit (getIndex w) = some (getIndex v) := by
    rw [Bitmap.getLastBit_eq, Bits.lastSet_eq_some]
    refine ⟨hindex, hset, fun k h₁ h₂ => ?_⟩
    have hk := hgap (getHeapAddressFromItem k) (heapWord_item k)
    rw [isSet, getIndex_item] at hk
    simp only [getIndex, WORD_SIZE, USER_HEAP_BASE] at h₁ h₂ hv₁ hw₁
    refine hk ?_ ?_ <;> simp only [getHeapAddressFromItem, WORD_SIZE, USER_HEAP_BASE] <;> omega
  obtain ⟨fuel, hfuel⟩ : ∃ fuel, getIndex w = fuel + 1 := ⟨getIndex w - 1, by omega⟩
  refine ⟨fuel, ?_⟩
  unfold findObjectStartAddr
  generalize getIndex w = item at hlast hfuel
  subst hfuel
  simp only [findObjectStartFrom, hlast, item_getIndex ⟨hv₁, hv₂⟩]

/-- The backward search from a word comes to the sentinel in front of an object when nothing is marked between. -/
theorem SentinelMap.findObjectStartAddr_eq {map : SentinelMap} {p w : Nat} (hp : HeapWord (p - 8)) (hp8 : 8 ≤ p) (hw : HeapWord w)
    (hlt : p ≤ w) (hset : map.isSet (p - 8) = true)
    (hgap : ∀ x, HeapWord x → p ≤ x → x < w → map.isSet x = false) (hsent : map.word (p - 8) = SENTINEL_WORD) :
    map.findObjectStartAddr w = some p := by
  have hp₂ := hp.2
  obtain ⟨fuel, heq⟩ := findObjectStartAddr_nearest hp hw (by omega) hset fun x hx h₁ h₂ => hgap x hx (by have := hx.2; omega) h₂
  rw [heq, if_pos hsent]
  simp only [SENTINEL_SIZE, WORD_SIZE, Nat.sub_add_cancel hp8]

/-- It finds nothing when the nearest marked word holds no sentinel. -/
theorem SentinelMap.findObjectStartAddr_none {map : SentinelMap} {v w : Nat} (hv : HeapWord v) (hw : HeapWord w) (hlt : v < w)
    (hset : map.isSet v = true) (hgap : ∀ x, HeapWord x → v < x → x < w → map.isSet x = false) (hpre : map.isPreset v = false) :
    map.findObjectStartAddr w = none := by
  rw [isPreset, Bool.or_eq_false_iff, beq_eq_false_iff_ne, beq_eq_false_iff_ne] at hpre
  obtain ⟨fuel, heq⟩ := findObjectStartAddr_nearest hv hw hlt hset hgap
  rw [heq, if_neg hpre.1, if_neg hpre.2]

/-- When it finds a start, the nearest marked word holds one of the preset sentinels. -/
theorem SentinelMap.findObjectStartAddr_some {map : SentinelMap} {w st : Nat} (hw : HeapWord w)
    (h : map.findObjectStartAddr w = some st) : ∃ v, HeapWord v ∧ v < w ∧ map.isSet v = true ∧
      (∀ x, HeapWord x → v < x → x < w → map.isSet x = false) ∧
        (map.word v = SENTINEL_WORD ∧ st = v + SENTINEL_SIZE ∨ map.word v = MEMALIGN_SENTINEL_WORD) := by
  cases hlast : map.bitmap.getLastBit (getIndex w) with
  | none =>
    unfold findObjectStartAddr at h
    generalize getIndex w = item at h hlast
    cases item with
    | zero => cases h
    | succ n =>
      rw [findObjectStartFrom, hlast] at h
      cases h
  | some item =>
    rw [Bitmap.getLastBit_eq, Bits.lastSet_eq_some] at hlast
    obtain ⟨hlt, hset, hgap⟩ := hlast
    have hv := heapWord_item item
    have hset' : map.isSet (getHeapAddressFromItem item) = true := by
      rw [isSet, getIndex_item]
      exact hset
    have hbelow : getHeapAddressFromItem item < w := by
      obtain ⟨h₁, h₂⟩ := hw
      simp only [getIndex, getHeapAddressFromItem, WORD_SIZE, USER_HEAP_BASE] at hlt h₁ ⊢
      omega
    have hgap' : ∀ x, HeapWord x → getHeapAddressFromItem item < x → x < w → map.isSet x = false := by
      intro x hx h₁ h₂
      obtain ⟨h₃, h₄⟩ := hx
      obtain ⟨h₅, h₆⟩ := hw
      refine hgap (getIndex x) ?_ ?_ <;>
        simp only [getIndex, getHeapAddressFromItem, WORD_SIZE, USER_HEAP_BASE] at h₁ h₃ h₅ ⊢ <;> omega
    obtain ⟨fuel, heq⟩ := findObjectStartAddr_nearest hv hw hbelow hset' hgap'
    refine ⟨_, hv, hbelow, hset', hgap', ?_⟩
    rw [heq] at h
    by_cases hs : map.word (getHeapAddressFromItem item) = SENTINEL_WORD
    · rw [if_pos hs] at h
      exact .inl ⟨hs, (Option.some.inj h).symm⟩
    · rw [if_neg hs] at h
      by_cases hm : map.word (getHeapAddressFromItem item) = MEMALIGN_SENTINEL_WORD
      · exact .inr hm
      · rw [if_neg hm] at h
        cases h

/-- Nothing is marked between the start of a live object and its guard. -/
theorem BlockOk.gap {map : SentinelMap} {p size position : Nat} (hok : BlockOk strict map p ⟨size, .live⟩)
    (hp : Placed position p size) {x : Nat} (hx : HeapWord x) (h₁ : p ≤ x)
    (h₂ : x < guardStart p (ObjectHeader.getObjectSize map.mem p)) : map.isSet x = false := by
  have hle := (hok.live rfl).le
  have hmod := hp.size.bounds.2.1
  have hal := hp.aligned
  dsimp only at hle
  have hend : x < p + size := by
    simp only [guardStart] at h₂
    omega
  by_contra hset
  rcases hok.bits x hx (by omega) (by dsimp only; omega) (Bool.eq_true_of_not_eq_false hset) with h | h | ⟨-, h | ⟨-, -, h⟩⟩
  · have := hp.low
    simp only [USER_HEAP_BASE] at this
    omega
  · dsimp only at h
    omega
  · omega
  · omega

/-- From every address of a live object the search comes to its start. -/
theorem HeapInv.findObjectStartAddr_inside {h : XPHeap} (hi : HeapInv strict h B) {p size a : Nat}
    (hB : B p = some ⟨size, .live⟩) (h₁ : p ≤ a) (h₂ : a < p + ObjectHeader.getObjectSize h.map.mem p) :
    h.map.findObjectStartAddr a = some p := by
  have hpl := hi.placed hB
  have hlow := hpl.low
  have hal := hpl.aligned
  have hok := hi.block hB
  have hindex : getIndex a = getIndex (a / 8 * 8) := by
    simp only [getIndex, WORD_SIZE, USER_HEAP_BASE]
    omega
  have hfind : h.map.findObjectStartAddr (a / 8 * 8) = some p := by
    simp only [USER_HEAP_BASE] at hlow
    refine SentinelMap.findObjectStartAddr_eq ⟨by simp only [USER_HEAP_BASE]; omega, by omega⟩ (by omega)
      ⟨by simp only [USER_HEAP_BASE]; omega, by omega⟩ (by omega) hok.marked (fun x hx h₃ h₄ => hok.gap hpl hx h₃ ?_) hok.first
    simp only [guardStart]
    omega
  unfold findObjectStartAddr at hfind ⊢
  rw [hindex]
  exact hfind

/-- A marked word of a live object that holds no sentinel is the one that the object ends in, and the backward
    search from there finds the object. -/
theorem HeapInv.suspect {h : XPHeap} (hi : HeapInv strict h B) {w : Nat} (hw : HeapWord w) (hset : h.map.isSet w = true)
    (hpre : h.map.isPreset w = false) :
    ∃ p size, B p = some ⟨size, .live⟩ ∧ h.map.findObjectStartAddr w = some p := by
  have hnot : h.map.mem.read w 8 ≠ SENTINEL_WORD := by
    intro hs
    simp [isPreset, word, hs] at hpre
  obtain ⟨p, ⟨size, u⟩, hB, hin₁, hin₂⟩ := hi.covered hw hset
  have hok := hi.block hB
  have hpl := hi.placed hB
  have hlow := hpl.low
  have hal := hpl.aligned
  obtain ⟨h16, hmod, -⟩ := hpl.size.bounds
  dsimp only at hin₂ hmod h16
  simp only [USER_HEAP_BASE] at hlow
  rcases hok.bits w hw hin₁ hin₂ hset with rfl | rfl | ⟨hlive, hg⟩
  · exact absurd hok.first hnot
  · exact absurd hok.last hnot
  dsimp only at hlive hg
  subst hlive
  obtain ⟨hpos, hle, hint, -⟩ := hok.live rfl
  dsimp only at hle hint
  -- Of the guard words only the one that holds a part of the object may hold something else than a sentinel.
  have hpart : w = guardStart p (ObjectHeader.getObjectSize h.map.mem p) := by
    rcases hg with hg | ⟨hne, hgt, hg⟩
    · exact hg
    · rw [GuardIntact, if_neg hne] at hint
      exact absurd (hg ▸ hint.2 hgt) hnot
  refine ⟨p, size, hB, SentinelMap.findObjectStartAddr_eq ⟨by simp only [USER_HEAP_BASE]; omega, by omega⟩ (by omega) hw ?_
    hok.marked (fun x hx h₁ h₂ => hok.gap hpl hx h₁ (hpart ▸ h₂)) hok.first⟩
  simp only [guardStart] at hpart
  omega

/-- No object is overflowed that the search from a suspect word finds. -/
theorem HeapInv.not_foundOverflowed {h : XPHeap} (hi : HeapInv strict h B) {item : Nat} (hs : h.map.Suspect item) :
    ¬ h.map.FoundOverflowed item := by
  rintro ⟨st, hst, hov⟩
  obtain ⟨hset, hpre⟩ := hs
  have hset' : h.map.isSet (getHeapAddressFromItem item) = true := by
    rw [isSet, getIndex_item]
    exact hset
  obtain ⟨p, size, hB, hfind⟩ := hi.suspect (heapWord_item item) hset' hpre
  rw [hfind, Option.some.injEq] at hst
  subst hst
  have hok := hi.block hB
  have hmax := (hi.placed hB).size.bounds.2.2
  obtain ⟨-, hle, hint, -⟩ := hok.live rfl
  have hsize : ObjectHeader.getSize h.map.mem p = size := hok.size
  dsimp only at hle hint hmax
  rw [hsize, (overflowed_eq_false hle (by omega)).mpr hint] at hov
  cases hov

/-- The scan finds nothing. -/
theorem HeapInv.not_reported {h : XPHeap} (hi : HeapInv strict h B) (item : Nat) : ¬ h.map.Reported item :=
  fun hrep => hi.not_foundOverflowed hrep.1 hrep.2.2

/-- What an epoch begins with: copies, and rings that may have become empty. -/
theorem MemoryInv.epochBegin (h : MemoryInv strict r live B) (current : Nat) (alive : List AliveThread) :
    MemoryInv strict (r.epochBegin current alive) live B := by
  refine ⟨⟨h.heap.start, h.heap.page, h.heap.total, h.heap.wp, h.heap.placed, h.heap.apart, h.heap.zone, h.heap.zoneBlock,
    h.heap.zoneZone, h.heap.block, h.heap.covered⟩, ?_, fun t => ?_, h.checks⟩
  · refine h.lists.dropRings fun t => ?_
    rcases (Quarantine.beginThreads_spec h.queues current alive t).2 with hsame | ⟨-, hnil⟩
    · exact .inl (congrArg Quarantine.ring hsame)
    · exact .inr hnil
  · exact (Quarantine.beginThreads_spec h.queues current alive t).1

/-- An epoch at whose end no word is reported. -/
theorem Runtime.epochEnd_unreported (hstart : USER_HEAP_BASE ≤ r.memory.heap.xheap.position)
    (hpage : r.memory.heap.xheap.position % 4096 = 0) (hwp : r.memory.heap.map.wp = [])
    (hno : ∀ item, ¬ r.memory.heap.map.Reported item) (current : Nat) (alive : List AliveThread) :
    r.epochEnd current alive =
      .ok (Runtime.epochBegin { r with memory := r.memory.note .heap false r.memory.heap.map } current alive) := by
  obtain ⟨b, map, hscan, hb, hclean⟩ := r.memory.checkHeapOverflow_spec hstart hpage
  have hfalse : b = false := by
    by_contra hne
    rcases hb.mp (Bool.eq_true_of_not_eq_false hne) with hset | ⟨item, -, hrep⟩
    · exact hset hwp
    · exact hno item hrep
  subst hfalse
  rw [hclean rfl] at hscan
  rw [Runtime.epochEnd, Except.bind_of_ok hscan]
  exact if_neg (by simp)

/-- An epoch ends well, and the next one begins. -/
theorem Runtime.epochEnd_spec (h : MemoryInv strict r live B) (current : Nat) (alive : List AliveThread) :
    ∃ r', r.epochEnd current alive = .ok r' ∧ MemoryInv strict r' live B ∧
      r'.memory.heap.map = r.memory.heap.map := by
  have hnoted : MemoryInv strict { r with memory := r.memory.note .heap false r.memory.heap.map } live B := by
    refine ⟨h.heap, h.lists, h.queues, fun c hc => ?_⟩
    rcases List.mem_cons.mp hc with rfl | hc
    · rfl
    · exact h.checks c hc
  exact ⟨_, Runtime.epochEnd_unreported h.heap.start h.heap.page h.heap.wp h.heap.not_reported current alive,
    hnoted.epochBegin current alive, rfl⟩

/-! ### Steps -/

namespace State

/-- The invariant of a state, for some layout. -/
def Inv (strict : Bool) (s : State) : Prop := ∃ B, MemoryInv strict s.rt s.live B

/-- The size that a step asks for is below the limit of the heap. -/
def Limited (s : State) : Op → Prop
  | .malloc _ sz => WithinLimit sz
  | .realloc _ ptr sz => Moves s.rt ptr sz → WithinLimit sz
  | _ => True

/-- The heap admits the size that a step asks for. -/
def Admits (s : State) : Op → Prop
  | .malloc _ sz => AdmittedSize sz
  | .realloc _ ptr sz => Moves s.rt ptr sz → AdmittedSize sz
  | _ => True

/-- A step that needs a block for an object of the size of the block does not get a recycled one whose last sentinel
    is unmarked. -/
def ExactFit (s : State) : Op → Prop
  | .malloc tid sz => ExactFitMarked s.rt.memory.heap tid sz
  | .realloc tid ptr sz => Moves s.rt ptr sz → ExactFitMarked s.rt.memory.heap tid sz
  | _ => True

def isSet (s : State) (w : Nat) : Bool := s.rt.memory.heap.map.isSet w

/-- The pointer that a step gives back. -/
def given : Op → List Nat
  | .realloc _ ptr _ => [ptr]
  | .free _ ptr => [ptr]
  | _ => []

/-- The pointer that a step has returned. -/
def returned (t : State) : Op → List Nat
  | .malloc _ _ => t.live.take 1
  | .realloc _ _ _ => t.live.take 1
  | _ => []

/-- What a step does: the invariant is kept, and bits change only in the blocks of the pointers that the step gives
    back or obtains. -/
structure Stepped (strict : Bool) (B : Layout) (s : State) (o : Op) (t : State) : Prop where
  layout : ∃ B', MemoryInv strict t.rt t.live B' ∧ B.Grows B'
  bits : ∀ w, HeapWord w → (∀ p ∈ given o, ¬ InBlock p (ObjectHeader.getSize s.mem p) w) →
    (∀ p ∈ t.returned o, ¬ InBlock p (ObjectHeader.getSize t.mem p) w) → t.isSet w = s.isSet w

variable {s : State}

theorem Admits.limited {o : Op} (h : s.Admits o) : s.Limited o := by
  cases o with
  | malloc tid sz => exact AdmittedSize.withinLimit h
  | realloc tid ptr sz => exact fun hm => (h hm).withinLimit
  | free tid ptr | write addr value | epochEnd current alive => trivial

theorem Stepped.inv {o : Op} {t : State} (h : Stepped strict B s o t) : t.Inv strict := by
  obtain ⟨B', h', -⟩ := h.layout
  exact ⟨B', h'⟩

theorem malloc_step (h : MemoryInv strict s.rt s.live B) (tid : Nat) {sz : Nat} (hsz : WithinLimit sz)
    (hstrict : strict = true → ExactFitMarked s.rt.memory.heap tid sz) :
    Spent (s.exec (.malloc tid sz)) ∨
      ∃ t, s.exec (.malloc tid sz) = .ok t ∧ Stepped strict B s (.malloc tid sz) t := by
  rcases Runtime.malloc_spec h tid hsz hstrict with herr | ⟨r', p, size, hok, h', -, -, hconf⟩
  · exact .inl herr.bind
  · refine .inr ⟨⟨r', p :: s.live⟩, Except.bind_of_ok hok, ⟨_, h', Layout.grows_update _ _ _⟩, fun w hw _ hout => ?_⟩
    have hsize : ObjectHeader.getSize r'.memory.heap.map.mem p = size := (h'.heap.block (Function.update_self ..)).size
    exact hconf.inBlock hw (hsize ▸ hout p List.mem_cons_self)

theorem free_step (h : MemoryInv strict s.rt s.live B) (tid : Nat) {p : Nat} (hp : p ∈ s.live) :
    ∃ t, s.exec (.free tid p) = .ok t ∧ Stepped strict B s (.free tid p) t := by
  obtain ⟨r', B', size, hok, h', hB, hbits, hkept⟩ := Runtime.free_spec h hp tid
  refine ⟨⟨r', s.live.erase p⟩, Except.bind_of_ok hok, ⟨B', h', (Layout.grows_update _ _ _).trans hkept.blocks⟩, fun w hw hout _ => ?_⟩
  have hsize : ObjectHeader.getSize s.mem p = size := (h.heap.block hB).size
  exact hbits w hw (hsize ▸ hout p List.mem_cons_self)

theorem realloc_step (h : MemoryInv strict s.rt s.live B) (tid : Nat) {p sz : Nat} (hp : p = 0 ∨ p ∈ s.live)
    (hsz : Moves s.rt p sz → WithinLimit sz)
    (hstrict : strict = true → Moves s.rt p sz → ExactFitMarked s.rt.memory.heap tid sz) :
    Spent (s.exec (.realloc tid p sz)) ∨
      ∃ t, s.exec (.realloc tid p sz) = .ok t ∧ Stepped strict B s (.realloc tid p sz) t := by
  rcases hp with rfl | hp
  -- Without an old object it is a `malloc`.
  · have hm : Moves s.rt 0 sz := .inl rfl
    have hnot : 0 ∉ s.live := fun h0 => by
      obtain ⟨_, hB⟩ := h.lists.live h0
      have := (h.heap.placed hB).low
      omega
    rcases malloc_step h tid (hsz hm) (fun hs => hstrict hs hm) with herr | ⟨t, hok, hst⟩
    · refine .inl ?_
      cases hmal : s.rt.malloc tid sz with
      | error e =>
        rw [exec, Except.bind_of_error hmal] at herr
        rw [exec, Runtime.realloc, if_pos rfl, Except.bind_of_error hmal]
        exact herr
      | ok res =>
        rw [exec, Except.bind_of_ok hmal] at herr
        exact absurd herr not_spent_ok
    · refine .inr ⟨t, ?_, hst.layout, fun w hw _ hout => hst.bits w hw (fun _ h => by cases h) hout⟩
      rw [exec, Runtime.realloc, if_pos rfl, List.erase_of_not_mem hnot]
      exact hok
  obtain ⟨size, hB⟩ := h.lists.live hp
  have hlow := (h.heap.placed hB).low
  have hne : p ≠ 0 := by omega
  have hsize : ObjectHeader.getSize s.mem p = size := (h.heap.block hB).size
  by_cases h0 : sz = 0
  -- With size 0 the object is freed and a small one returned, which never fills its block.
  · subst h0
    obtain ⟨r₁, B₁, size₁, hfree, h₁, hB₁, hbits, hkept⟩ := Runtime.free_spec h hp tid
    have hfit : strict = true → ExactFitMarked r₁.memory.heap tid 1 := by
      intro _ q rest _ heq
      have hle := (@Kingsley.size2Class_spec (requestSize 1) (by decide) (by decide)).2.2
      rw [← heq] at hle
      exact absurd hle (by decide)
    have hrun : s.rt.realloc tid p 0 = r₁.malloc tid 1 := by
      rw [Runtime.realloc, if_neg hne, if_pos rfl, Except.bind_of_ok hfree]
    rcases Runtime.malloc_spec h₁ tid (show WithinLimit 1 by simp [WithinLimit]) hfit with herr | ⟨r', q, size', hok, h', -, -, hconf⟩
    · exact .inl (by rw [exec, hrun]; exact herr.bind)
    · refine .inr ⟨⟨r', q :: s.live.erase p⟩, by rw [exec, hrun, Except.bind_of_ok hok],
        ⟨_, h', ((Layout.grows_update _ _ _).trans hkept.blocks).trans (Layout.grows_update _ _ _)⟩, fun w hw hout hout' => ?_⟩
      have hsize' : ObjectHeader.getSize r'.memory.heap.map.mem q = size' := (h'.heap.block (Function.update_self ..)).size
      rw [hB] at hB₁
      cases hB₁
      exact (hconf.inBlock hw (hsize' ▸ hout' q List.mem_cons_self)).trans
        (hbits w hw (hsize ▸ hout p List.mem_cons_self))
  · by_cases hle : sz ≤ size
    · obtain ⟨r', hok, h', hconf, -⟩ := Runtime.realloc_inPlace h hp hB h0 hle tid
      refine .inr ⟨⟨r', p :: s.live.erase p⟩, Except.bind_of_ok hok, ⟨_, h', .refl B⟩, fun w hw hout _ => ?_⟩
      exact hconf.inBlock hw (hsize ▸ hout p List.mem_cons_self)
    · have hm : Moves s.rt p sz := .inr ⟨h0, by rw [show ObjectHeader.getSize s.rt.memory.heap.map.mem p = size from hsize]; omega⟩
      rcases Runtime.realloc_move h hp hB (hsz hm) (by omega) tid (fun hs => hstrict hs hm) with
        herr | ⟨r', buf, size', B', hok, h', hbuf, hgrows, hbits, -⟩
      · exact .inl herr.bind
      · refine .inr ⟨⟨r', buf :: s.live.erase p⟩, Except.bind_of_ok hok, ⟨B', h', hgrows⟩, fun w hw hout hout' => ?_⟩
        have hsize' : ObjectHeader.getSize r'.memory.heap.map.mem buf = size' := (h'.heap.block hbuf).size
        exact hbits w hw (hsize ▸ hout p List.mem_cons_self) (hsize' ▸ hout' buf List.mem_cons_self)

/-- An admissible step with a size below the limit returns, unless the heap is used up. -/
theorem exec_spec (h : MemoryInv strict s.rt s.live B) {o : Op} (ha : s.Admissible o) (hs : s.Limited o)
    (hstrict : strict = true → s.ExactFit o) :
    Spent (s.exec o) ∨ ∃ t, s.exec o = .ok t ∧ Stepped strict B s o t := by
  cases o with
  | malloc tid sz => exact malloc_step h tid hs hstrict
  | realloc tid ptr sz => exact realloc_step h tid ha hs hstrict
  | free tid ptr => exact .inr (free_step h tid ha)
  | write addr value =>
    obtain ⟨p, hp, hin⟩ := ha
    refine .inr ⟨_, rfl, ⟨B, h.write hp fun a ha => ?_, .refl B⟩, fun w _ _ _ => rfl⟩
    have : a ≠ addr := by
      rintro rfl
      have := hin.1
      have := hin.2
      simp only [mem] at this
      omega
    exact Mem.set_of_ne this
  | epochEnd current alive =>
    obtain ⟨r', hok, h', hmap⟩ := Runtime.epochEnd_spec h current alive
    refine .inr ⟨{ s with rt := r' }, Except.bind_of_ok hok, ⟨B, h', .refl B⟩, fun w _ _ _ => ?_⟩
    simp only [isSet, hmap]

/-- A step that returns was asked for a size that the heap admits. -/
theorem limited_of_ok {t : State} {o : Op} (h : s.exec o = .ok t) : s.Limited o := by
  cases o with
  | malloc tid sz =>
    cases hm : s.rt.malloc tid sz with
    | error e =>
      rw [exec, Except.bind_of_error hm] at h
      cases h
    | ok res => exact Runtime.malloc_admitted hm
  | realloc tid ptr sz =>
    intro hmoves
    cases hm : s.rt.malloc tid sz with
    | ok res => exact Runtime.malloc_admitted hm
    | error e =>
      rcases hmoves with rfl | ⟨h0, hlt⟩
      · rw [exec, Runtime.realloc, if_pos rfl, Except.bind_of_error hm] at h
        cases h
      · by_cases hp : ptr = 0
        · subst hp
          rw [exec, Runtime.realloc, if_pos rfl, Except.bind_of_error hm] at h
          cases h
        · have hrun : s.rt.realloc tid ptr sz = .error e := by
            rw [Runtime.realloc, if_neg hp, if_neg h0]
            dsimp only
            rw [if_neg (by omega), Except.bind_of_error hm]
          rw [exec, Except.bind_of_error hrun] at h
          cases h
  | free tid ptr => trivial
  | write addr value => trivial
  | epochEnd current alive => trivial

theorem step_inv (h : MemoryInv strict s.rt s.live B) {o : Op} (ha : s.Admissible o) (hstrict : strict = true → s.ExactFit o) {t : State}
    (ht : s.exec o = .ok t) : Stepped strict B s o t := by
  rcases exec_spec h ha (limited_of_ok ht) hstrict with herr | ⟨t', hok, hst⟩
  · exact absurd (ht ▸ herr) not_spent_ok
  · rw [hok, Except.ok.injEq] at ht
    exact ht ▸ hst

/-- No block has been handed out yet. -/
theorem initial_memoryInv (h : s.Initial) : MemoryInv strict s.rt s.live fun _ => none := by
  have hbits : ∀ w, s.rt.memory.heap.map.isSet w = false := by
    intro w
    rw [SentinelMap.isSet, Bitmap.isBitSet_eq, h.bitmap]
    simp
  have hring : ∀ t, (s.rt.qlist t).ring = [] := fun t => by rw [h.qlist]; exact Quarantine.initial_ring
  refine ⟨⟨?_, ?_, ?_, h.wp, (by simp), (by simp), fun ha => ?_, (by simp), fun ha => ?_, (by simp), fun _ hset => ?_⟩,
    ⟨fun hp => ?_, fun t c => ?_, fun ho => ?_, fun t => ?_, fun hp => ?_, ?_⟩, fun t => ?_, fun c hc => ?_⟩
  · rw [h.position]
  · rw [h.position, USER_HEAP_BASE]
  · rw [h.position, h.remaining]
  · rw [h.zones] at ha
    cases ha
  · rw [h.zones] at ha
    cases ha
  · rw [hbits] at hset
    cases hset
  · rw [h.bins] at hp
    cases hp
  · rw [h.bins]
    exact List.nodup_nil
  · rw [Runtime.rings, hring] at ho
    cases ho
  · rw [Runtime.rings, hring]
    exact List.nodup_nil
  · rw [h.live] at hp
    cases hp
  · rw [h.live]
    exact List.nodup_nil
  · rw [h.qlist]
    exact Quarantine.initial_wf
  · rw [h.checks] at hc
    cases hc

theorem initial_inv (h : s.Initial) : s.Inv strict := ⟨_, initial_memoryInv h⟩

theorem run_steps {os : List Op} {t : State} (h : s.run os = some t) : Steps system s os t := by
  induction os generalizing s with
  | nil =>
    cases h
    exact .nil
  | cons o os ih =>
    rw [run] at h
    split at h
    next ha =>
      cases hx : s.exec o with
      | ok u =>
        rw [hx] at h
        exact .cons ⟨ha, hx⟩ (ih h)
      | error e =>
        rw [hx] at h
        cases h
    next => cases h

theorem run_reachable {os : List Op} {t : State} (hs : Reachable system s) (h : s.run os = some t) : Reachable system t :=
  (run_steps h).reachable hs

theorem exec_of_run {o : Op} {t : State} (h : s.run [o] = some t) : s.Admissible o ∧ s.exec o = .ok t := by
  rw [run] at h
  split at h
  next ha =>
    cases hx : s.exec o with
    | ok u =>
      rw [hx] at h
      cases h
      exact ⟨ha, rfl⟩
    | error e =>
      rw [hx] at h
      cases h
  next => cases h

/-- A list of steps that ends well from the beginning. -/
theorem exists_run {os : List Op} (h : (start.run os).isSome = true) : ∃ t, start.run os = some t ∧ Reachable system t := by
  obtain ⟨t, ht⟩ := Option.isSome_iff_exists.mp h
  exact ⟨t, ht, run_reachable (.init start_initial) ht⟩

theorem reachable_inv (h : Reachable system s) : s.Inv false :=
  Reachable.invariant (S := system) (P := Inv false) (fun _ => initial_inv)
    (fun _ _ _ ⟨_, hi⟩ hs => (step_inv hi hs.1 nofun hs.2).inv) h

/-- No false positives: whatever the application does with its own pointers and inside its objects, no check finds
    anything and no watchpoint is set, and its next call with a size that the heap admits returns as long as the heap is not
    used up. -/
theorem no_false_positives (h : Reachable system s) :
    (∀ c ∈ s.rt.memory.checks, c.2 = false) ∧ s.rt.memory.heap.map.wp = [] ∧
      ∀ o, s.Admissible o → s.Admits o → Spent (s.exec o) ∨ ∃ t, s.exec o = .ok t := by
  have ⟨_, hm⟩ := reachable_inv h
  refine ⟨hm.checks, hm.heap.wp, fun o ha hs => ?_⟩
  rcases exec_spec hm ha hs.limited nofun with herr | ⟨t, hok, -⟩
  · exact .inl herr
  · exact .inr ⟨t, hok⟩

/-- A run with every kind of step. -/
def tour : List Op :=
  [.epochEnd 0 [⟨0, false⟩], .malloc 0 5, .write 0x100000022 7, .realloc 0 0x100000020 12, .realloc 0 0x100000020 40,
    .free 0 0x100000050]

theorem no_false_positives_tour : ∃ t, start.run tour = some t ∧ t.rt.memory.checks.length = 4 ∧
    ∀ c ∈ t.rt.memory.checks, c.2 = false := by
  have hlen : (start.run tour).map (fun t => t.rt.memory.checks.length) = some 4 := by decide +kernel
  obtain ⟨t, ht, hr⟩ := @exists_run tour (by rw [← Option.isSome_map, hlen]; rfl)
  rw [ht] at hlen
  exact ⟨t, ht, Option.some.inj hlen, (no_false_positives hr).1⟩

/-! ### Guard words -/

/-- The guard words of the live objects are marked, in every run in which no block is reused for an object that fills
    it while the last sentinel of the block is unmarked. -/
theorem guard_words_marked (h : Reachable (system.restrict ExactFit) s) {p : Nat} (hp : p ∈ s.live) :
    s.isSet (p - WORD_SIZE) = true ∧
      ∀ w, GuardWord p (ObjectHeader.getSize s.mem p) (ObjectHeader.getObjectSize s.mem p) w → s.isSet w = true := by
  obtain ⟨B, hm⟩ : s.Inv true := Reachable.invariant (S := system.restrict ExactFit) (P := Inv true) (fun _ => initial_inv)
    (fun _ _ _ ⟨_, hi⟩ hs => (step_inv hi hs.2.1 (fun _ => hs.1) hs.2.2).inv) h
  obtain ⟨size, hB⟩ := hm.lists.live hp
  have hok := hm.heap.block hB
  have hsize : ObjectHeader.getSize s.mem p = size := hok.size
  refine ⟨hok.marked, fun w hw => ?_⟩
  rw [hsize] at hw
  exact (hok.live rfl).marked (.inl rfl) w hw

theorem guard_words_marked_malloc : ∃ t, start.exec (.malloc 0 5) = .ok t ∧ 0x100000020 ∈ t.live ∧
    t.isSet 0x100000018 = true := by
  have hlive : (start.exec (.malloc 0 5)).toOption.map (·.live) = some [0x100000020] := by decide +kernel
  cases hx : start.exec (.malloc 0 5) with
  | error e =>
    rw [hx] at hlive
    cases hlive
  | ok t =>
    rw [hx] at hlive
    have hlive : t.live = [0x100000020] := Option.some.inj hlive
    have hp : 0x100000020 ∈ t.live := hlive ▸ List.mem_singleton_self _
    have hr : Reachable (system.restrict ExactFit) t := .step (.malloc 0 5) (.init start_initial) ⟨nofun, trivial, hx⟩
    exact ⟨t, rfl, hp, (guard_words_marked hr hp).1⟩

/-- A block that is filled, freed and filled again: `free` has unmarked the last sentinel of the block, which is the
    guard of the object, and `realmalloc` does not mark it again. The block is too large for the quarantine. -/
theorem refilled_block_unmarked : ¬ ∀ s, Reachable system s → ∀ p ∈ s.live,
    s.isSet (p - WORD_SIZE) = true ∧
      ∀ w, GuardWord p (ObjectHeader.getSize s.mem p) (ObjectHeader.getObjectSize s.mem p) w → s.isSet w = true := by
  intro h
  have hrun : (start.run [.malloc 0 0x1000000, .free 0 0x100000020, .malloc 0 0x1000000]).map
      (fun t => (t.live, ObjectHeader.getObjectSize t.mem 0x100000020, t.isSet 0x101000020)) =
        some ([0x100000020], 0x1000000, false) := by decide +kernel
  obtain ⟨t, ht, hr⟩ := exists_run (by rw [← Option.isSome_map, hrun]; rfl)
  rw [ht, Option.map_some, Option.some.injEq, Prod.mk.injEq, Prod.mk.injEq] at hrun
  obtain ⟨hlive, hsize, hbit⟩ := hrun
  have hg := (h t hr 0x100000020 (hlive ▸ List.mem_singleton_self _)).2 0x101000020 (by
    rw [hsize]
    exact .inl rfl)
  rw [hbit] at hg
  cases hg

end State

end DoubleTake
