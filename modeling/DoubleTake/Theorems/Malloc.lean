import DoubleTake.Lib.Except
import DoubleTake.Theorems.Layout
import DoubleTake.Theorems.Quarantine

/-! Allocation keeps the layout: a new block lies apart from all others, a recycled one is taken whole, and
    `realmalloc` puts the guard of the object into it. -/

namespace DoubleTake

open SentinelMap XMemory

variable {strict : Bool} {h : XPHeap} {B : Layout}

/-! ### Size classes -/

namespace Kingsley

theorem size2Class_spec {sz : Nat} (h₁ : 16 ≤ sz) (h₂ : sz ≤ 2 ^ 31) :
    1 ≤ size2Class sz ∧ size2Class sz ≤ 28 ∧ sz ≤ class2Size (size2Class sz) := by
  have hne : 2 * sz - 1 ≠ 0 := by omega
  have hlow : 4 ≤ Nat.log2 (2 * sz - 1) := (Nat.le_log2 hne).mpr (by omega)
  have hhigh : Nat.log2 (2 * sz - 1) < 32 := (Nat.log2_lt hne).mpr (by omega)
  have hlt : 2 * sz - 1 < 2 ^ (Nat.log2 (2 * sz - 1) + 1) := Nat.lt_log2_self
  simp only [size2Class, ilog2, class2Size, if_neg (show ¬ sz < 8 by omega)]
  rw [show Nat.log2 (2 * sz - 1) - 3 + 3 = Nat.log2 (2 * sz - 1) by omega]
  rw [pow_succ] at hlt
  omega

/-- The sizes of the classes are in their own class. -/
theorem size2Class_class2Size (c : Nat) : size2Class (class2Size c) = c := by
  have hpos : 1 ≤ 2 ^ c := Nat.one_le_two_pow
  have hpow : 2 ^ (c + 3) = 8 * 2 ^ c := by rw [pow_add, Nat.mul_comm]; rfl
  have hpow' : 2 ^ (c + 3 + 1) = 16 * 2 ^ c := by rw [pow_succ, hpow]; omega
  have hlog : Nat.log2 (2 * 2 ^ (c + 3) - 1) = c + 3 := by
    rw [Nat.log2_eq_iff (by omega)]
    omega
  have hge : ¬ 2 ^ (c + 3) < 8 := by omega
  rw [size2Class, class2Size, if_neg hge, ilog2, hlog]
  omega

end Kingsley

/-! ### Chunks and arenas -/

theorem Spent.bind {α β : Type} {e : Except Fault α} {f : α → Except Fault β} (h : Spent e) : Spent (e >>= f) :=
  h.imp Except.bind_of_error Except.bind_of_error

theorem not_spent_ok {α : Type} {a : α} : ¬ Spent (.ok a) := by
  rintro (h | h) <;> cases h

/-- The map is the same word for word. -/
structure SameMap (map map' : SentinelMap) : Prop where
  mem : map'.mem = map.mem
  bits : ∀ w, HeapWord w → map'.isSet w = map.isSet w
  wp : map'.wp = map.wp

theorem SameMap.refl (map : SentinelMap) : SameMap map map := ⟨rfl, fun _ _ => rfl, rfl⟩

theorem SameMap.blockOk {map map' : SentinelMap} (hs : SameMap map map') {p position : Nat} {b : Block}
    (hok : BlockOk strict map p b) (hp : Placed position p b.size) : BlockOk strict map' p b :=
  hok.congr hp (hs.mem ▸ Mem.Agree.refl _ _ _) fun w hw _ _ => hs.bits w hw

/-- No bit is set at or above the position of the heap. -/
theorem HeapInv.clear_above (hi : HeapInv strict h B) {w : Nat} (hw : HeapWord w) (hpos : h.xheap.position ≤ w) :
    h.map.isSet w = false := by
  by_contra hset
  obtain ⟨p, b, hB, -, hlt⟩ := hi.covered hw (by simpa using hset)
  have := (hi.placed hB).high
  omega

/-- A chunk comes off the bump pointer, or the process ends. -/
theorem HeapInv.chunkMalloc (hi : HeapInv strict h B) (sz : Nat) :
    Spent (h.chunkMalloc sz) ∨
      ∃ h', h.chunkMalloc sz = .ok (h.xheap.position, h') ∧ HeapInv strict h' B ∧ SameMap h.map h'.map ∧
        h'.zones = h.zones ∧ h'.bins = h.bins ∧ h.xheap.position + sz ≤ h'.xheap.position := by
  have hbase : USER_HEAP_BASE % 4096 = 0 := by decide
  have hstart := hi.start
  have hpage := hi.page
  have htotal := hi.total
  generalize hpages : PageSize * ((sz + PageSize - 1) / PageSize) = pages
  have hsz : sz ≤ pages ∧ pages % 4096 = 0 := by
    simp only [PageSize] at hpages
    omega
  simp only [XPHeap.chunkMalloc, hpages]
  by_cases hrem : h.xheap.remaining < pages
  · exact .inl (.inl (if_pos hrem))
  rw [if_neg hrem]
  by_cases hinside : ClearsInside h.xheap.position pages
  swap
  · exact .inl (.inr (if_pos hinside))
  · refine .inr ?_
    rw [if_neg (not_not.mpr hinside)]
    obtain ⟨b', hclear, hbelow, hsub⟩ := @Bitmap.clearBits_words h.map.bitmap (getIndex h.xheap.position)
      (getBitSize pages) (by simp only [getIndex, WORD_SIZE]; omega) (by simp only [getBitSize, WORD_SIZE]; omega)
    have hclean : h.map.cleanup h.xheap.position pages = some { h.map with bitmap := b' } := by
      rw [cleanup, hclear]
      rfl
    have hsame : SameMap h.map { h.map with bitmap := b' } := by
      refine ⟨rfl, fun w hw => ?_, rfl⟩
      by_cases hlt : w < h.xheap.position
      · refine hbelow _ ?_
        have := hw.1
        have := hw.2
        simp only [getIndex, WORD_SIZE]
        omega
      -- Above the position nothing was set.
      · have hnot := hi.clear_above hw (by omega)
        rw [hnot]
        by_contra hset
        have hold : h.map.isSet w = true := hsub _ (Bool.eq_true_of_not_eq_false hset)
        rw [hnot] at hold
        cases hold
    rw [hclean]
    refine ⟨_, rfl, ⟨by dsimp only; omega, by dsimp only; omega, by dsimp only; omega, hi.wp, fun hB => ?_, hi.apart, fun ha => ?_,
      hi.zoneBlock, hi.zoneZone, fun hB => hsame.blockOk (hi.block hB) (hi.placed hB), fun hw hset => ?_⟩, hsame, rfl, rfl,
      by dsimp only; omega⟩
    · obtain ⟨h₁, h₂, h₃, h₄⟩ := hi.placed hB
      exact ⟨h₁, h₂, by dsimp only; omega, h₄⟩
    · obtain ⟨h₁, h₂, h₃⟩ := hi.zone ha
      exact ⟨h₁, h₂, by dsimp only; omega⟩
    · rw [hsame.bits _ hw] at hset
      exact hi.covered hw hset

/-- The arena of the zone has room for `sz` bytes, or the process ends. -/
theorem HeapInv.moreArena (hi : HeapInv strict h B) (tid sz : Nat) (h16 : sz % 16 = 0) :
    Spent (h.moreArena tid sz) ∨
      ∃ h' a, h.moreArena tid sz = .ok h' ∧ HeapInv strict h' B ∧ SameMap h.map h'.map ∧ h'.bins = h.bins ∧
        (h'.zones tid).arenaSpace = some a ∧ sz ≤ (h'.zones tid).sizeRemaining := by
  rw [XPHeap.moreArena]
  dsimp only
  by_cases hneed : (h.zones tid).arenaSpace = none ∨ (h.zones tid).sizeRemaining < sz
  swap
  · rw [if_neg hneed]
    obtain ⟨hne, hle⟩ := not_or.mp hneed
    obtain ⟨a, ha⟩ := Option.ne_none_iff_exists'.mp hne
    exact .inr ⟨h, a, rfl, hi, .refl _, rfl, ha, by omega⟩
  rw [if_pos hneed]
  generalize hal : (if USER_HEAP_CHUNK < sz then sz else USER_HEAP_CHUNK) = alloc
  have hallo : sz ≤ alloc := by
    split at hal <;> omega
  rcases hi.chunkMalloc (alloc + XPHeap.arenaSize) with herr | ⟨h', hok, hi', hsame, hz, hb, hpos⟩
  · exact .inl herr.bind
  refine .inr ⟨{ h' with zones := Function.update h'.zones tid ⟨some (h.xheap.position + XPHeap.arenaSize), alloc⟩ },
    h.xheap.position + XPHeap.arenaSize, by rw [hok]; rfl, ?_, hsame, hb, by simp, by simpa using hallo⟩
  simp only [XPHeap.arenaSize] at hpos ⊢
  have hstart := hi.start
  have hpage := hi.page
  refine ⟨hi'.start, hi'.page, hi'.total, hi'.wp, hi'.placed, hi'.apart, fun {t a} ha => ?_, fun {t a p b} ha hB => ?_,
    fun {t a u c} ha hc htu => ?_, hi'.block, hi'.covered⟩
  · by_cases ht : t = tid
    · subst ht
      simp only [Function.update_self, Option.some.injEq] at ha ⊢
      omega
    · simp only [Function.update_of_ne ht] at ha ⊢
      exact hi'.zone ha
  · by_cases ht : t = tid
    · subst ht
      simp only [Function.update_self, Option.some.injEq] at ha ⊢
      have := (hi.placed hB).high
      omega
    · simp only [Function.update_of_ne ht] at ha ⊢
      exact hi'.zoneBlock ha hB
  -- The other zones end where the heap ended before.
  · have hold : ∀ {v d}, v ≠ tid → (h'.zones v).arenaSpace = some d →
        d + (h'.zones v).sizeRemaining ≤ h.xheap.position := by
      intro v d _ hd
      rw [hz] at hd ⊢
      exact (hi.zone hd).2.2
    by_cases ht : t = tid
    · subst ht
      have hu : u ≠ t := fun h => htu h.symm
      simp only [Function.update_self, Function.update_of_ne hu, Option.some.injEq] at ha hc ⊢
      have := hold hu hc
      omega
    · by_cases hu : u = tid
      · subst hu
        simp only [Function.update_self, Function.update_of_ne ht, Option.some.injEq] at ha hc ⊢
        have := hold ht ha
        omega
      · simp only [Function.update_of_ne ht, Function.update_of_ne hu] at ha hc ⊢
        exact hi'.zoneZone ha hc htu

/-- `[a, a + sz)` belongs to nobody. -/
structure Unowned (h : XPHeap) (B : Layout) (a sz : Nat) : Prop where
  aligned : a % 16 = 0
  low : USER_HEAP_BASE + 16 ≤ a
  high : a + sz ≤ h.xheap.position
  block : ∀ {p b}, B p = some b → p + b.size + 16 ≤ a ∨ a + sz + 16 ≤ p
  zone : ∀ {t c}, (h.zones t).arenaSpace = some c → a + sz ≤ c ∨ c + (h.zones t).sizeRemaining ≤ a

theorem HeapInv.zoneMalloc (hi : HeapInv strict h B) (tid sz : Nat) (h16 : sz % 16 = 0) :
    Spent (h.zoneMalloc tid sz) ∨
      ∃ h' a, h.zoneMalloc tid sz = .ok (a, h') ∧ HeapInv strict h' B ∧ SameMap h.map h'.map ∧ h'.bins = h.bins ∧
        Unowned h' B a sz := by
  have halign : MallocInfo.align sz = sz := by
    simp only [MallocInfo.align, MallocInfo.Alignment]
    omega
  rw [XPHeap.zoneMalloc, halign]
  rcases hi.moreArena tid sz h16 with herr | ⟨h', a, hok, hi', hsame, hb, ha, hrem⟩
  · exact .inl herr.bind
  obtain ⟨ha16, hlow, hhigh⟩ := hi'.zone ha
  refine .inr ⟨{ h' with zones := Function.update h'.zones tid ⟨some (a + sz), (h'.zones tid).sizeRemaining - sz⟩ }, a,
    ?_, ?_, hsame, hb, ⟨ha16, hlow, by dsimp only; omega, fun hB => ?_, fun {t c} hc => ?_⟩⟩
  · rw [Except.bind_of_ok hok]
    simp only [ha]
  · refine ⟨hi'.start, hi'.page, hi'.total, hi'.wp, hi'.placed, hi'.apart, fun {t c} hc => ?_, fun {t c p b} hc hB => ?_,
      fun {t c u d} hc hd htu => ?_, hi'.block, hi'.covered⟩
    · by_cases ht : t = tid
      · subst ht
        simp only [Function.update_self, Option.some.injEq] at hc ⊢
        omega
      · simp only [Function.update_of_ne ht] at hc ⊢
        exact hi'.zone hc
    · by_cases ht : t = tid
      · subst ht
        simp only [Function.update_self, Option.some.injEq] at hc ⊢
        have := hi'.zoneBlock ha hB
        omega
      · simp only [Function.update_of_ne ht] at hc ⊢
        exact hi'.zoneBlock hc hB
    · by_cases ht : t = tid
      · subst ht
        have hu : u ≠ t := fun h => htu h.symm
        simp only [Function.update_self, Function.update_of_ne hu, Option.some.injEq] at hc hd ⊢
        have := hi'.zoneZone ha hd htu
        omega
      · by_cases hu : u = tid
        · subst hu
          simp only [Function.update_self, Function.update_of_ne ht, Option.some.injEq] at hc hd ⊢
          have := hi'.zoneZone hc ha htu
          omega
        · simp only [Function.update_of_ne ht, Function.update_of_ne hu] at hc hd ⊢
          exact hi'.zoneZone hc hd htu
  · have := hi'.zoneBlock ha hB
    omega
  · by_cases ht : t = tid
    · subst ht
      simp only [Function.update_self, Option.some.injEq] at hc ⊢
      omega
    · simp only [Function.update_of_ne ht] at hc ⊢
      have := hi'.zoneZone ha hc (fun h => ht h.symm)
      omega

/-! ### New blocks -/

/-- The map after `AdaptAppHeap::malloc` has laid out a block of `size` bytes at `a`. -/
def newBlock (map : SentinelMap) (a size : Nat) : SentinelMap :=
  { map with mem := ObjectHeader.construct map.mem a size }.setupSentinels (a + 16) size

section
variable {map : SentinelMap} {a size : Nat}

theorem newBlock_mem (map : SentinelMap) (a size : Nat) : (newBlock map a size).mem =
    ((((map.mem.write a 4 size).write (a + 4) 4 0).write (a + 8) 8 SENTINEL_WORD).write (a + 8) 8 SENTINEL_WORD).write
      (a + 16 + size) 8 SENTINEL_WORD := rfl

theorem newBlock_outside {x : Nat} (h : x < a ∨ a + size + 24 ≤ x) : (newBlock map a size).mem x = map.mem x := by
  rw [newBlock_mem]
  rcases h with h | h
  · rw [Mem.write_of_lt (by omega), Mem.write_of_lt (by omega), Mem.write_of_lt (by omega), Mem.write_of_lt (by omega),
      Mem.write_of_lt (by omega)]
  · rw [Mem.write_of_ge (by omega), Mem.write_of_ge (by omega), Mem.write_of_ge (by omega), Mem.write_of_ge (by omega),
      Mem.write_of_ge (by omega)]

theorem newBlock_getSize (h16 : 16 ≤ size) (hlt : size < 2 ^ 32) :
    ObjectHeader.getSize (newBlock map a size).mem (a + 16) = size := by
  rw [ObjectHeader.getSize, Nat.add_sub_cancel, newBlock_mem]
  rw [Mem.read_congr (Mem.agree_write_left (by omega)), Mem.read_congr (Mem.agree_write_left (by omega)),
    Mem.read_congr (Mem.agree_write_left (by omega)), Mem.read_congr (Mem.agree_write_left (by omega))]
  exact Mem.read_write_of_lt _ _ (by omega)

theorem newBlock_first : (newBlock map a size).mem.read (a + 8) 8 = SENTINEL_WORD := by
  rw [newBlock_mem, Mem.read_congr (Mem.agree_write_left (by omega))]
  exact Mem.read_write_of_lt _ _ sentinel_word_lt

theorem newBlock_last : (newBlock map a size).mem.read (a + 16 + size) 8 = SENTINEL_WORD := by
  rw [newBlock_mem]
  exact Mem.read_write_of_lt _ _ sentinel_word_lt

theorem newBlock_isSet {x : Nat} (ha : a % 8 = 0) (hb : USER_HEAP_BASE ≤ a) (h8 : size % 8 = 0) (hx : HeapWord x) :
    (newBlock map a size).isSet x = true ↔ x = a + 16 + size ∨ x = a + 8 ∨ map.isSet x = true := by
  have hw : HeapWord (a + 8) := ⟨by omega, by omega⟩
  have hw' : HeapWord (a + 16 + size) := ⟨by omega, by omega⟩
  exact (tryToSet_isSet hw' hx).trans (or_congr Iff.rfl (tryToSet_isSet hw hx))

theorem newBlock_ok (ha : a % 8 = 0) (hb : USER_HEAP_BASE ≤ a) (hs : BlockSize size)
    (hfree : ∀ w, HeapWord w → a ≤ w → w < a + size + 32 → map.isSet w = false) :
    BlockOk strict (newBlock map a size) (a + 16) ⟨size, .taken⟩ := by
  obtain ⟨h16, hmod, hmax⟩ := hs.bounds
  have hbits := fun {x} (hx : HeapWord x) => @newBlock_isSet map a size x ha hb (by omega) hx
  have hfirst : a + 16 - 8 = a + 8 := by omega
  refine ⟨newBlock_getSize h16 (by omega), hfirst ▸ newBlock_first, newBlock_last, ?_, fun w hw h₁ h₂ hset => ?_,
    nofun, nofun⟩
  · rw [hfirst]
    exact (hbits ⟨by omega, by omega⟩).mpr (.inr (.inl rfl))
  · rcases (hbits hw).mp hset with h | h | h
    · exact .inr (.inl h)
    · exact .inl (by omega)
    · rw [hfree w hw (by omega) (by dsimp only at h₂; omega)] at h
      cases h

end

/-- A block in bytes that belonged to nobody. -/
theorem HeapInv.extend (hi : HeapInv strict h B) {a size : Nat} (hs : BlockSize size) (hu : Unowned h B a (size + 32))
    {map' : SentinelMap} (hwp : map'.wp = []) (hc : Confined h.map map' (a + 16) size) {u : Use}
    (hok : BlockOk strict map' (a + 16) ⟨size, u⟩) :
    B (a + 16) = none ∧ HeapInv strict { h with map := map' } (Function.update B (a + 16) (some ⟨size, u⟩)) := by
  have hnone : B (a + 16) = none := by
    by_contra hne
    obtain ⟨b, hb⟩ := Option.ne_none_iff_exists'.mp hne
    have := hu.block hb
    omega
  have h16 := hu.aligned
  have hlow := hu.low
  have hhigh := hu.high
  -- The new block is apart from each old one.
  have hapart : ∀ {q c}, B q = some c → a + 16 + size + 32 ≤ q ∨ q + c.size + 32 ≤ a + 16 := by
    intro q c hq
    have := hu.block hq
    omega
  refine ⟨hnone, ⟨hi.start, hi.page, hi.total, hwp, ?_, ?_, hi.zone, ?_, hi.zoneZone, ?_, ?_⟩⟩
  · intro q c hq
    by_cases hqp : q = a + 16
    · subst hqp
      rw [Function.update_self, Option.some.injEq] at hq
      rw [← hq]
      exact ⟨by omega, by omega, by dsimp only; omega, hs⟩
    · rw [Function.update_of_ne hqp] at hq
      exact hi.placed hq
  · intro q c r d hq hr hne
    by_cases hqp : q = a + 16
    · subst hqp
      rw [Function.update_self, Option.some.injEq] at hq
      rw [Function.update_of_ne (fun h => hne h.symm)] at hr
      rw [← hq]
      exact hapart hr
    · rw [Function.update_of_ne hqp] at hq
      by_cases hrp : r = a + 16
      · subst hrp
        rw [Function.update_self, Option.some.injEq] at hr
        rw [← hr]
        exact (hapart hq).symm
      · rw [Function.update_of_ne hrp] at hr
        exact hi.apart hq hr hne
  · intro t c q d hc' hq
    by_cases hqp : q = a + 16
    · subst hqp
      rw [Function.update_self, Option.some.injEq] at hq
      rw [← hq]
      have := hu.zone hc'
      dsimp only
      omega
    · rw [Function.update_of_ne hqp] at hq
      exact hi.zoneBlock hc' hq
  · intro q c hq
    by_cases hqp : q = a + 16
    · subst hqp
      rw [Function.update_self, Option.some.injEq] at hq
      exact hq ▸ hok
    · rw [Function.update_of_ne hqp] at hq
      have hap := hapart hq
      have hpl := hi.placed hq
      have hql := hpl.low
      simp only [USER_HEAP_BASE] at hql
      exact (hi.block hq).congr hpl (fun x h₁ h₂ => (hc.mem x (by omega)).symm) fun w hw h₁ h₂ => hc.bits w hw (by omega)
  · intro w hw hset
    by_cases hin : a + 16 ≤ w + 16 ∧ w < a + 16 + size + 16
    · exact ⟨a + 16, _, Function.update_self .., hin⟩
    · rw [hc.bits w hw (by omega)] at hset
      obtain ⟨q, c, hq, hw'⟩ := hi.covered hw hset
      have hqp : q ≠ a + 16 := by
        rintro rfl
        rw [hnone] at hq
        cases hq
      exact ⟨q, c, by rw [Function.update_of_ne hqp]; exact hq, hw'⟩

/-- A new block: nobody had it before, and its last sentinel is marked. -/
theorem HeapInv.adaptMalloc (hi : HeapInv strict h B) (tid : Nat) {size : Nat} (hs : BlockSize size) :
    Spent (h.adaptMalloc tid size) ∨
      ∃ h' p, h.adaptMalloc tid size = .ok (p, h') ∧ B p = none ∧
        HeapInv strict h' (Function.update B p (some ⟨size, .taken⟩)) ∧ h'.bins = h.bins ∧
        h'.map.isSet (p + size) = true ∧ Confined h.map h'.map p size := by
  obtain ⟨h16, hmod, hmax⟩ := hs.bounds
  have hsz : size + ObjectHeader.headerSize + 2 * SENTINEL_SIZE = size + 32 := rfl
  rw [XPHeap.adaptMalloc, hsz]
  rcases hi.zoneMalloc tid (size + 32) (by omega) with herr | ⟨h', a, hok, hi', hsame, hb, hu⟩
  · exact .inl herr.bind
  have ha := hu.aligned
  have hlow := hu.low
  have hw' : HeapWord (a + 16 + size) := ⟨by omega, by omega⟩
  have hbits := fun {x} (hx : HeapWord x) => @newBlock_isSet h'.map a size x (by omega)
    (by omega) (by omega) hx
  -- Nothing was marked in the bytes of the block.
  have hfree : ∀ w, HeapWord w → a ≤ w → w < a + size + 32 → h'.map.isSet w = false := by
    intro w hw h₁ h₂
    by_contra hset
    obtain ⟨q, c, hq, h₃, h₄⟩ := hi'.covered hw (Bool.eq_true_of_not_eq_false hset)
    have := hu.block hq
    omega
  have hconf : Confined h'.map (newBlock h'.map a size) (a + 16) size := by
    refine ⟨fun x hx => newBlock_outside (by omega), fun w hw hout => ?_⟩
    rw [Bool.eq_iff_iff, hbits hw]
    have h₁ : w ≠ a + 16 + size := by omega
    have h₂ : w ≠ a + 8 := by omega
    simp only [h₁, h₂, false_or]
  have hblock : BlockOk strict (newBlock h'.map a size) (a + 16) ⟨size, .taken⟩ :=
    newBlock_ok (by omega) (by omega) hs hfree
  obtain ⟨hnone, hinv⟩ := hi'.extend hs hu (show (newBlock h'.map a size).wp = [] from hi'.wp) hconf hblock
  refine .inr ⟨{ h' with map := newBlock h'.map a size }, a + 16, ?_, hnone, hinv, hb,
    (hbits hw').mpr (.inl rfl), ⟨fun x hx => ?_, fun w hw hout => ?_⟩⟩
  · rw [Except.bind_of_ok hok]
    have hsize : ObjectHeader.getSize (newBlock h'.map a size).mem (a + ObjectHeader.headerSize) = size := hblock.size
    exact if_pos hsize
  · rw [hconf.mem x hx, hsame.mem]
  · exact (hconf.bits w hw hout).trans (hsame.bits w hw)

/-! ### Blocks for a request -/

/-- What a request for a block of at least `sz` bytes does to the heap and the lists. -/
structure Obtained (strict : Bool) (h h' : XPHeap) (rings : Nat → List FreeObject) (live : List Nat) (B : Layout)
    (tid sz p size : Nat) : Prop where
  class_eq : size = Kingsley.class2Size (Kingsley.size2Class sz)
  le : sz ≤ size
  block : BlockSize size
  before : B p = none ∨ ∃ t, B p = some ⟨size, .free t⟩
  heap : HeapInv strict h' (Function.update B p (some ⟨size, .taken⟩))
  lists : Lists h'.bins rings live (Function.update B p (some ⟨size, .taken⟩))
  detached : Detached h'.bins rings live p
  confined : Confined h.map h'.map p size
  recycled : (∃ rest, h.bins tid (Kingsley.size2Class sz) = p :: rest ∧ h'.map = h.map) ∨ h'.map.isSet (p + size) = true

theorem HeapInv.segMalloc (hi : HeapInv strict h B) {rings : Nat → List FreeObject} {live : List Nat}
    (hl : Lists h.bins rings live B) (tid : Nat) {sz : Nat} (h₁ : 16 ≤ sz) (h₂ : sz ≤ 2 ^ 31) :
    Spent (h.segMalloc tid sz) ∨
      ∃ h' p size, h.segMalloc tid sz = .ok (p, h') ∧ Obtained strict h h' rings live B tid sz p size := by
  obtain ⟨hc₁, hc₂, hle⟩ := Kingsley.size2Class_spec h₁ h₂
  have hs : BlockSize (Kingsley.class2Size (Kingsley.size2Class sz)) := ⟨_, hc₁, hc₂, rfl⟩
  have hmax : Kingsley.class2Size (Kingsley.size2Class sz) ≤ XPHeap.maxObjectSize := hs.bounds.2.2
  simp only [XPHeap.segMalloc]
  rw [if_neg (by omega), if_pos hmax]
  cases hbin : h.bins tid (Kingsley.size2Class sz) with
  | cons p rest =>
    -- A free block of the class is taken as it is.
    have hB := hl.bins (hbin ▸ List.mem_cons_self : p ∈ h.bins tid (Kingsley.size2Class sz))
    obtain ⟨hl', hd⟩ := hl.popBin hbin
    have hok : BlockOk strict h.map p ⟨Kingsley.class2Size (Kingsley.size2Class sz), .taken⟩ :=
      (hi.block hB).reuse nofun nofun nofun
    have hi' := hi.update hB
      { h with bins := Function.update h.bins tid (Function.update (h.bins tid) (Kingsley.size2Class sz) rest) }
      rfl rfl hi.wp (Confined.refl _ _ _) hok
    exact .inr ⟨_, p, _, rfl, rfl, hle, hs, .inr ⟨tid, hB⟩, hi', hl'.assign hd _, hd, Confined.refl _ _ _,
      .inl ⟨rest, hbin, rfl⟩⟩
  | nil =>
    rcases hi.adaptMalloc tid hs with herr | ⟨h', p, hok, hnone, hi', hb, hset, hconf⟩
    · exact .inl herr
    · have hd := hl.detached (.inl hnone)
      exact .inr ⟨h', p, _, hok, rfl, hle, hs, .inl hnone, hi', hb ▸ hl.assign hd _, hb ▸ hd, hconf, .inr hset⟩

/-! ### Objects -/

section
variable {map : SentinelMap} {p size sz position : Nat}

theorem setObjectSize_outside {m : Mem} {x : Nat} (hp : 16 ≤ p) (h : x + 12 < p ∨ p ≤ x + 8) :
    ObjectHeader.setObjectSize m p sz x = m x := by
  rcases h with h | h
  · exact Mem.write_of_lt (by omega)
  · exact Mem.write_of_ge (by omega)

theorem getObjectSize_setObjectSize {m : Mem} (h : sz < 2 ^ 32) :
    ObjectHeader.getObjectSize (ObjectHeader.setObjectSize m p sz) p = sz :=
  Mem.read_write_of_lt _ _ (by omega)

/-- The object size of a block that the application does not have says nothing. -/
theorem BlockOk.setObjectSize {u : Use} (hok : BlockOk strict map p ⟨size, u⟩) (sz : Nat) (hp : Placed position p size)
    (hu : u ≠ .live) : BlockOk strict { map with mem := ObjectHeader.setObjectSize map.mem p sz } p ⟨size, u⟩ := by
  have hlow := hp.low
  simp only [USER_HEAP_BASE] at hlow
  have hout := fun {x} => @setObjectSize_outside p sz map.mem x (by omega)
  refine ⟨?_, ?_, ?_, hok.marked, fun w hw h₁ h₂ hset => ?_, fun hl => absurd hl hu, fun t ht => ?_⟩
  · exact (getSize_congr (fun x h₁ h₂ => (hout (by omega)).symm) (by omega)).trans hok.size
  · exact (Mem.read_congr fun x h₁ h₂ => hout (by omega)).trans hok.first
  · exact (Mem.read_congr fun x h₁ h₂ => hout (by omega)).trans hok.last
  · rcases hok.bits w hw h₁ h₂ hset with h | h | ⟨h, -⟩
    · exact .inl h
    · exact .inr (.inl h)
    · exact absurd h hu
  · exact (hok.canary t ht).congr fun x h₁ h₂ => (hout (by omega)).symm

/-- The map with an object of `sz` bytes put into a block. -/
def newObject (map : SentinelMap) (p size sz : Nat) : SentinelMap :=
  setSentinels { map with mem := ObjectHeader.setObjectSize map.mem p sz } p size sz

/-- Setting size and guard of an object makes the block one of the application. -/
theorem BlockOk.newObject {u : Use} (hok : BlockOk strict map p ⟨size, u⟩) (hp : Placed position p size)
    (hu : u ≠ .live) (h₁ : 1 ≤ sz) (h₂ : sz ≤ size) :
    BlockOk strict (newObject map p size sz) p ⟨size, .live⟩ ∧ Confined map (newObject map p size sz) p size ∧
      ObjectHeader.getObjectSize (newObject map p size sz).mem p = sz := by
  obtain ⟨h16, hmod, hmax⟩ := hp.size.bounds
  have hlow := hp.low
  have hal := hp.aligned
  simp only [USER_HEAP_BASE] at hlow
  have hok' := hok.setObjectSize sz hp hu
  generalize hmap : { map with mem := ObjectHeader.setObjectSize map.mem p sz } = map' at hok'
  have hobj : ObjectHeader.getObjectSize map'.mem p = sz := by
    rw [← hmap]
    exact getObjectSize_setObjectSize (by omega)
  have hnew : DoubleTake.newObject map p size sz = setSentinels map' p size sz := by rw [← hmap]; rfl
  have hbelow := fun {x} => @setSentinels_below map' p size sz h₂ (by omega) (by omega) x
  have habove := fun {x} => @setSentinels_above map' p size sz h₂ (by omega) (by omega)
    (show size % 8 = 0 by omega) x
  have hset := fun {x} => @setSentinels_isSet map' p size sz x h₂ (by omega) (by omega)
    (show size % 8 = 0 by omega) (by simp only [USER_HEAP_BASE]; omega)
  have hobj' : ObjectHeader.getObjectSize (setSentinels map' p size sz).mem p = sz :=
    (getObjectSize_congr (fun x _ _ => (hbelow (by omega)).symm) (by omega)).trans hobj
  rw [hnew]
  refine ⟨⟨?_, ?_, ?_, ?_, fun w hw h₃ h₄ hs => ?_, fun _ => ⟨?_, ?_, ?_, fun _ w hw => ?_⟩, (by simp)⟩, ⟨fun x hx => ?_,
    fun w hw hout => ?_⟩, hobj'⟩
  · exact (getSize_congr (fun x _ _ => (hbelow (by omega)).symm) (by omega)).trans hok'.size
  · exact (Mem.read_congr fun x _ _ => hbelow (by omega)).trans hok'.first
  · exact setSentinels_last h₂ (by omega) (by omega) (by omega) hok'.last
  · exact (hset ⟨by simp only [USER_HEAP_BASE]; omega, by omega⟩).mpr (.inr hok'.marked)
  · rw [hobj']
    rcases (hset hw).mp hs with hg | hs
    · exact .inr (.inr ⟨rfl, hg⟩)
    · rcases hok'.bits w hw h₃ h₄ hs with h | h | ⟨h, -⟩
      · exact .inl h
      · exact .inr (.inl h)
      · exact absurd h hu
  · rw [hobj']
    exact h₁
  · rw [hobj']
    exact h₂
  · rw [hobj']
    exact setSentinels_intact h₂ (by omega) (by omega)
  · rw [hobj'] at hw
    obtain ⟨hw₁, -, hw₃⟩ := hw.bounds (by omega) h₂ (show size % 8 = 0 by omega)
    exact (hset ⟨by simp only [USER_HEAP_BASE]; omega, hw₃⟩).mpr (.inl hw)
  · have hsize : map'.mem x = map.mem x := by
      rw [← hmap]
      exact setObjectSize_outside (by omega) (by omega)
    rw [← hsize]
    rcases hx with hx | hx
    · exact hbelow (by omega)
    · exact habove (by omega) (.inr (by omega))
  · have hbits : map'.isSet w = map.isSet w := by
      rw [← hmap]
      rfl
    rw [← hbits, Bool.eq_iff_iff, hset hw]
    refine ⟨fun hor => hor.resolve_left fun hg => ?_, .inr⟩
    have := hg.bounds (by omega) h₂ (by omega)
    omega

/-- The guard of an object that fills its block is the last sentinel of the block. -/
theorem guardWord_full {w : Nat} (hs : BlockSize size) : GuardWord p size size w ↔ w = p + size := by
  have hmod := hs.bounds.2.1
  simp only [GuardWord, guardStart]
  omega

/-- An object that fills its block: only the size is set. -/
theorem BlockOk.fullObject {u : Use} (hok : BlockOk strict map p ⟨size, u⟩) (hp : Placed position p size)
    (hu : u ≠ .live) (hstrict : strict = true → map.isSet (p + size) = true) :
    BlockOk strict { map with mem := ObjectHeader.setObjectSize map.mem p size } p ⟨size, .live⟩ := by
  obtain ⟨h16, hmod, hmax⟩ := hp.size.bounds
  have hok' := hok.setObjectSize size hp hu
  have hobj : ObjectHeader.getObjectSize (ObjectHeader.setObjectSize map.mem p size) p = size :=
    getObjectSize_setObjectSize (by omega)
  refine ⟨hok'.size, hok'.first, hok'.last, hok'.marked, fun w hw h₁ h₂ hset => ?_, fun _ => ⟨?_, ?_, ?_, ?_⟩, (by simp)⟩
  · rcases hok'.bits w hw h₁ h₂ hset with h | h | ⟨h, -⟩
    · exact .inl h
    · exact .inr (.inl h)
    · exact absurd h hu
  · rw [hobj]
    omega
  · rw [hobj]
  · rw [hobj, GuardIntact, if_pos (by omega)]
    exact hok'.last
  · rw [hobj]
    rintro (hs | hlt) w hw
    · rw [(guardWord_full hp.size).mp hw]
      exact hstrict hs
    · exact absurd hlt (Nat.lt_irrefl size)

end

/-- The sizes below the limit of the heap: what is left of `MaxSize` after rounding up to 16 bytes. -/
def WithinLimit (sz : Nat) : Prop := sz ≤ 2 ^ 31 - 16

/-- The sizes that the heap admits. A new block of 2^30 bytes or more would need more bits cleared than the bitmap has. -/
def AdmittedSize (sz : Nat) : Prop := sz ≤ 2 ^ 29

theorem AdmittedSize.withinLimit {sz : Nat} (h : AdmittedSize sz) : WithinLimit sz := le_trans h (by decide)

/-- The rounded size that `realmalloc` asks for. -/
def requestSize (sz : Nat) : Nat := (if sz < 16 then 16 else sz + 15) / 16 * 16

/-- The size that the object gets. -/
def objectSize (sz : Nat) : Nat := if sz = 0 then 1 else sz

/-- An object that fills a recycled block relies on the block's own last sentinel, whose bit must be set then. -/
def ExactFitMarked (h : XPHeap) (tid sz : Nat) : Prop :=
  ∀ p rest, h.bins tid (Kingsley.size2Class (requestSize sz)) = p :: rest →
    objectSize sz = Kingsley.class2Size (Kingsley.size2Class (requestSize sz)) → h.map.isSet (p + objectSize sz) = true

/-- What `realmalloc` does: the object is in a block of its own. -/
structure Allocated (strict : Bool) (x x' : XMemory) (rings : Nat → List FreeObject) (live : List Nat) (B : Layout)
    (sz p size : Nat) : Prop where
  memory : x' = { x with heap := x'.heap }
  object : ObjectHeader.getObjectSize x'.heap.map.mem p = objectSize sz
  before : B p = none ∨ ∃ t, B p = some ⟨size, .free t⟩
  heap : HeapInv strict x'.heap (Function.update B p (some ⟨size, .live⟩))
  lists : Lists x'.heap.bins rings (p :: live) (Function.update B p (some ⟨size, .live⟩))
  confined : Confined x.heap.map x'.heap.map p size

theorem XPHeap.malloc_request {sz : Nat} (h₁ : 16 ≤ requestSize sz) (h₂ : requestSize sz ≤ 2 ^ 31 - 16) (tid : Nat) :
    h.malloc tid (requestSize sz) = h.segMalloc tid (requestSize sz) := by
  simp only [XPHeap.malloc, MallocInfo.MaxSize, MallocInfo.MinSize]
  rw [if_neg (by omega), if_neg (by omega), if_neg (by omega)]
  congr 1
  simp only [MallocInfo.align, MallocInfo.Alignment, requestSize]
  omega

theorem requestSize_bounds {sz : Nat} (h : WithinLimit sz) :
    16 ≤ requestSize sz ∧ requestSize sz ≤ 2 ^ 31 - 16 ∧ objectSize sz ≤ requestSize sz ∧ 1 ≤ objectSize sz := by
  simp only [WithinLimit] at h
  simp only [requestSize, objectSize]
  split <;> split <;> omega

theorem XMemory.realmalloc_eq (x : XMemory) (tid : Nat) {sz : Nat} (hsz : sz + 15 < 2 ^ 64) :
    x.realmalloc tid sz = (do
      let (ptr, heap) ← x.heap.malloc tid (requestSize sz)
      if ptr = 0 then .error .nullPointer
      else
        let map := { heap.map with mem := ObjectHeader.setObjectSize heap.map.mem ptr (objectSize sz) }
        let size := ObjectHeader.getSize map.mem ptr
        if size < objectSize sz then .error .assertion
        else
          let map := if size > objectSize sz then setSentinels map ptr size (objectSize sz) else map
          .ok (ptr, { x with heap := { heap with map := map } })) := by
  have hreq : ((if sz < 16 then 16 else sz) + 15) % 2 ^ 64 / 16 * 16 = requestSize sz := by
    simp only [requestSize]
    split <;> omega
  simp only [XMemory.realmalloc, hreq, objectSize]
  rfl

/-- With a size below the limit, `realmalloc` gives out an object, or the heap is used up. -/
theorem XMemory.realmalloc_spec {x : XMemory} (hi : HeapInv strict x.heap B) {rings : Nat → List FreeObject}
    {live : List Nat} (hl : Lists x.heap.bins rings live B) (tid : Nat) {sz : Nat} (hsz : WithinLimit sz)
    (hstrict : strict = true → ExactFitMarked x.heap tid sz) :
    Spent (x.realmalloc tid sz) ∨
      ∃ x' p size, x.realmalloc tid sz = .ok (p, x') ∧ Allocated strict x x' rings live B sz p size := by
  obtain ⟨hr₁, hr₂, hle, hpos⟩ := requestSize_bounds hsz
  rw [x.realmalloc_eq tid (by simp only [WithinLimit] at hsz; omega), XPHeap.malloc_request hr₁ hr₂]
  rcases hi.segMalloc hl tid hr₁ (by omega) with herr | ⟨h', p, size, hok, ho⟩
  · exact .inl herr.bind
  refine .inr ?_
  have hB : Function.update B p (some ⟨size, .taken⟩) p = some ⟨size, .taken⟩ := Function.update_self ..
  have hp := ho.heap.placed hB
  have hlow := hp.low
  simp only [USER_HEAP_BASE] at hlow
  have hblock := ho.heap.block hB
  have hsize : ObjectHeader.getSize (ObjectHeader.setObjectSize h'.map.mem p (objectSize sz)) p = size :=
    (hblock.setObjectSize _ hp nofun).size
  have hle' : objectSize sz ≤ size := hle.trans ho.le
  have hlt : size < 2 ^ 32 := by
    have := ho.block.bounds
    omega
  -- The object gets its size, and its guard when it does not fill the block.
  have hobject : ∃ map', map' = (if size > objectSize sz then
        setSentinels { h'.map with mem := ObjectHeader.setObjectSize h'.map.mem p (objectSize sz) } p size (objectSize sz)
        else { h'.map with mem := ObjectHeader.setObjectSize h'.map.mem p (objectSize sz) }) ∧
      BlockOk strict map' p ⟨size, .live⟩ ∧ Confined h'.map map' p size ∧ map'.wp = h'.map.wp ∧
      ObjectHeader.getObjectSize map'.mem p = objectSize sz := by
    by_cases hfull : size > objectSize sz
    · rw [if_pos hfull]
      obtain ⟨hlive, hconf, hobj⟩ := hblock.newObject hp nofun hpos hle'
      exact ⟨_, rfl, hlive, hconf, setSentinels_wp, hobj⟩
    · rw [if_neg hfull]
      have hfit : objectSize sz = size := by omega
      rw [hfit]
      refine ⟨_, rfl, hblock.fullObject hp nofun fun hs => ?_, ⟨fun a ha => setObjectSize_outside (by omega) (by omega),
        fun _ _ _ => rfl⟩, rfl, getObjectSize_setObjectSize (by omega)⟩
      rcases ho.recycled with ⟨rest, hbin, hmap⟩ | hset
      · have := hstrict hs p rest hbin (hfit.trans ho.class_eq)
        rw [hmap, ← hfit]
        exact this
      · exact hset
  obtain ⟨map', hmap', hlive, hconf, hwp, hobj⟩ := hobject
  have hi' := ho.heap.update hB { h' with map := map' } rfl rfl (hwp.trans ho.heap.wp) hconf hlive
  rw [Function.update_idem] at hi'
  have hl' := (ho.lists.assign ho.detached (some ⟨size, .live⟩)).consLive ho.detached (Function.update_self ..)
  rw [Function.update_idem] at hl'
  refine ⟨{ x with heap := { h' with map := map' } }, p, size, ?_, rfl, hobj, ho.before, hi', hl', ho.confined.trans hconf⟩
  rw [hok]
  change (if p = 0 then _ else _) = _
  rw [if_neg (by omega)]
  dsimp only
  rw [hsize, if_neg (by omega), ← hmap']

/-- `realmalloc` does not return with a size above the limit. -/
theorem XMemory.realmalloc_admitted {x x' : XMemory} {tid sz p : Nat} (h : x.realmalloc tid sz = .ok (p, x')) :
    WithinLimit sz := by
  simp only [WithinLimit]
  by_contra hbig
  simp only [XMemory.realmalloc, if_neg (show ¬ sz < 16 by omega), if_neg (show ¬ sz = 0 by omega)] at h
  generalize hreq : (sz + 15) % 2 ^ 64 / 16 * 16 = req at h
  cases hm : x.heap.malloc tid req with
  | error e =>
    rw [hm] at h
    cases h
  | ok r =>
    rw [hm] at h
    change (if r.1 = 0 then _ else _) = _ at h
    by_cases h0 : r.1 = 0
    · rw [if_pos h0] at h
      cases h
    rw [if_neg h0] at h
    -- The block size is a 32-bit number, so a size beyond that fails the assertion.
    have hread : ObjectHeader.getSize (ObjectHeader.setObjectSize r.2.map.mem r.1 sz) r.1 < 256 ^ 4 := Mem.read_lt _ _ _
    by_cases hlt : ObjectHeader.getSize (ObjectHeader.setObjectSize r.2.map.mem r.1 sz) r.1 < sz
    · rw [if_pos hlt] at h
      cases h
    · have hnull : x.heap.malloc tid req = .ok (0, x.heap) := by
        simp only [XPHeap.malloc, MallocInfo.MaxSize]
        rw [if_neg (by omega), if_pos (by omega)]
      rw [hnull, Except.ok.injEq] at hm
      exact h0 (by rw [← hm])

end DoubleTake
