import DoubleTake.Theorems.LeakCheck

/-! What the check for leaks leaves in memory. The walk clears the marks in headers and no others; the search leaves a mark
    elsewhere when it takes an address for one of an object that is not there. -/

namespace DoubleTake

open SentinelMap

variable {blocks : Nat → Option Nat} {map : SentinelMap} {roots : Roots} {stop : Nat} {m : Mem}

/-- A program may write into an object whatever it likes. -/
theorem LaidOut.write (hl : LaidOut map stop blocks) {p size : Nat} (hB : blocks p = some size) {m' : Mem}
    (hsame : ∀ a, a < p ∨ p + ObjectHeader.getObjectSize map.mem p ≤ a → m' a = map.mem a)
    (hset : ∀ w, HeapWord w → p ≤ w → w + 8 ≤ p + ObjectHeader.getObjectSize map.mem p → map.isSet w = false) :
    LaidOut { map with mem := m' } stop blocks := by
  have hle := hl.object hB
  have hheader : ∀ {q size'}, blocks q = some size' → Mem.Agree m' map.mem (q - 16) q := by
    intro q size' hC a h₁ h₂
    refine hsame a ?_
    by_cases hqp : q = p
    · exact .inl (by omega)
    · have := hl.apart hC hB hqp
      omega
  have hobject : ∀ {q size'}, blocks q = some size' → ObjectHeader.getObjectSize m' q = ObjectHeader.getObjectSize map.mem q := by
    intro q size' hC
    have hlow := (hl.placed hC).low
    exact Mem.read_congr ((hheader hC).mono (by omega) (by omega))
  refine ⟨hl.placed, hl.apart, fun hC => ?_, fun hC => ?_, fun hC => ?_, hl.marked, hl.covered, fun {q size' w} hC hw h₁ h₂ hbit => ?_⟩
  · have hlow := (hl.placed hC).low
    exact (Mem.read_congr ((hheader hC).mono le_rfl (by omega))).trans (hl.size hC)
  · dsimp only
    rw [hobject hC]
    exact hl.object hC
  · have hlow := (hl.placed hC).low
    exact (Mem.read_congr ((hheader hC).mono (by omega) (by omega))).trans (hl.first hC)
  · dsimp only at h₂
    rw [hobject hC] at h₂
    by_cases hqp : q = p
    · subst hqp
      exact absurd (hbit.symm.trans (hset w hw h₁ h₂)) (by decide)
    · rw [← hl.inside hC hw h₁ h₂ hbit]
      have hle' := hl.object hC
      have hapart := hl.apart hC hB hqp
      exact Mem.read_congr fun a h₃ h₄ => hsame a (by omega)

namespace LeakCheck

variable {c : LeakCheck}

/-- With enough rounds the check returns, and every byte of memory is what it was before. -/
def LeavesAlone (map : SentinelMap) (roots : Roots) (stop : Nat) : Prop :=
  ∃ rounds, ∀ fuel ≥ rounds, ∃ hasLeakage c, doSlowLeakCheck fuel map roots USER_HEAP_BASE stop = .ok (hasLeakage, c) ∧
    ∀ a, c.map.mem a = map.mem a

/-- The block size and the object size of every header, the bytes of every object, and the global regions are what they were. -/
def Untouched (blocks : Nat → Option Nat) (roots : Roots) (m m' : Mem) : Prop :=
  (∀ p, (blocks p).isSome → Mem.Agree m m' (p - 16) (p - 8) ∧ Mem.Agree m m' p (p + ObjectHeader.getObjectSize m p)) ∧
    ∀ r ∈ roots.globals, Mem.Agree m m' r.start r.stop

/-- The search has come to an object that is not there, and has marked it. -/
def Foreign (blocks : Nat → Option Nat) (map : SentinelMap) (roots : Roots) (stop : Nat) (m : Mem) : Prop :=
  ∃ q, Found map roots stop q ∧ ¬ (blocks q).isSome ∧ (map.mem (q - 16)).toNat % 2 = 0 ∧ (m (q - 16)).toNat % 2 = 1

/-- The state of a search that may come to such objects: headers have nothing but marks, and it goes on as a search of the heap
    until it marks an object that is not there. -/
structure Searched (blocks : Nat → Option Nat) (map : SentinelMap) (roots : Roots) (stop : Nat) (c : LeakCheck) : Prop where
  same : c.map = { map with mem := c.map.mem }
  heapBegin : c.heapBegin = USER_HEAP_BASE + 16
  heapEnd : c.heapEnd = stop
  headers : Headers blocks map.mem c.map.mem
  either : Searching blocks map roots stop c ∨ Foreign blocks map roots stop c.map.mem

theorem Searching.searched (hl : LaidOut map stop blocks) (h : Searching blocks map roots stop c) : Searched blocks map roots stop c :=
  ⟨h.same, h.heapBegin, h.heapEnd, hl.headers h.marks, .inl h⟩

/-- An object that is not there and begins at a word has no part of a header in its first byte: the word would be the first
    sentinel of a block, and half of a sentinel is no power of two. -/
theorem foreign_outside (hl : LaidOut map stop blocks) (hh : Headers blocks map.mem m) {q p : Nat} (hq : ¬ (blocks q).isSome)
    (hal : q % WORD_SIZE = 0) (hpow : (ObjectHeader.getObjectSize m q).isPowerOfTwo) (hp : (blocks p).isSome) :
    q - 16 < p - 16 ∨ p ≤ q - 16 := by
  by_contra hin
  obtain ⟨size, hB⟩ := Option.isSome_iff_exists.mp hp
  have hlow := hl.low hp
  have halp := hl.aligned hp
  have hne : q ≠ p := fun heq => hq (heq ▸ hp)
  have heq : q = p + 8 := by
    simp only [WORD_SIZE] at hal halp
    omega
  subst heq
  have hfirst := hl.first hB
  have hsame : ObjectHeader.getObjectSize m (p + 8) = map.mem.read (p - 8 + 4) 4 := by
    rw [ObjectHeader.getObjectSize, show p + 8 - 12 = p - 8 + 4 by omega]
    exact (Mem.read_congr ((hh.rest p hp).mono (by omega) (by omega))).symm
  have hhalf : map.mem.read (p - 8 + 4) 4 = SENTINEL_WORD / 2 ^ 32 := by
    have hlt := Mem.read_lt map.mem (p - 8) 4
    have hsplit := Mem.read_add map.mem (p - 8) 4 4
    rw [← hfirst, SentinelMap.word, hsplit, show 2 ^ 32 = 256 ^ 4 by decide, Nat.add_mul_div_left _ _ (by decide),
      Nat.div_eq_of_lt hlt, Nat.zero_add]
  rw [hsame, hhalf, ← Nat.ne_zero_and_sub_one_eq_zero_iff_isPowerOfTwo] at hpow
  exact absurd hpow.2 (by decide)

/-- The mark of an object changes nothing else in headers, whether the object is there or not. -/
theorem headers_mark (hl : LaidOut map stop blocks) (hh : Headers blocks map.mem m) {q : Nat} (hal : q % WORD_SIZE = 0)
    (hpow : (ObjectHeader.getObjectSize m q).isPowerOfTwo) : Headers blocks map.mem (ObjectHeader.markObjectChecked m q) := by
  obtain ⟨v, hv, hmark⟩ := @ObjectHeader.markObjectChecked_eq m q
  rw [hmark]
  by_cases hq : (blocks q).isSome
  · exact hl.headers_set hh hq (by omega)
  · refine ⟨fun p hp a h₁ h₂ => ?_, fun p hp => ?_⟩
    · have := foreign_outside hl hh hq hal hpow hp
      have := hl.low hp
      rw [Mem.set_of_ne (by omega)]
      exact hh.rest p hp a h₁ h₂
    · have := foreign_outside hl hh hq hal hpow hp
      have := hl.low hp
      rw [Mem.set_of_ne (by omega)]
      exact hh.mark p hp

theorem kept_searched (hl : LaidOut map stop blocks) : Kept (Searched blocks map roots stop) := by
  refine ⟨fun {c addr rest} h hc hnone => ?_, fun {c addr rest p} h hc hp hal => ?_⟩
  · exact ⟨h.same, h.heapBegin, h.heapEnd, h.headers, h.either.imp_left fun hs => hs.skip hl hc hnone⟩
  have hpow := (ObjectHeader.isValidAddr_iff.mp (objectOf_spec (scanOf_eq_some.mp hp).1).2).1
  refine ⟨?_, h.heapBegin, h.heapEnd, headers_mark hl h.headers hal hpow, ?_⟩
  · dsimp only [scan]
    rw [h.same]
  rcases h.either with hs | ⟨q, hfound, hq, heven, hodd⟩
  · by_cases hreal : (blocks p).isSome
    · exact .inl (hs.visit hl hc hp hreal)
    · have hmem : addr ∈ c.unexploredObjects := by
        rw [hc]
        exact List.mem_cons_self
      have hfound := hs.found hl hmem hp
      have heven := ObjectHeader.isObjectChecked_eq_false_iff.mp (scanOf_unchecked ((hs.scanOf_iff hl hmem).mp hp).1)
      exact .inr ⟨p, hfound, hreal, heven, ObjectHeader.isObjectChecked_iff.mp ObjectHeader.isObjectChecked_mark_self⟩
  · exact .inr ⟨q, hfound, hq, heven, ObjectHeader.odd_mark hodd⟩

/-- What the walk leaves in memory, after any search. -/
theorem Searched.report (hl : LaidOut map stop blocks) (h : Searched blocks map roots stop c) :
    Headers blocks map.mem c.reportUnreachableNonfreedObjects.2.map.mem ∧
      (∀ p, (blocks p).isSome → ObjectHeader.isObjectChecked c.reportUnreachableNonfreedObjects.2.map.mem p = false) ∧
      ∀ a, (∀ p, (blocks p).isSome → a ≠ p - 16) → c.reportUnreachableNonfreedObjects.2.map.mem a = c.map.mem a := by
  have hwalk := walking_start hl h.same h.heapEnd h.headers
  have hclean : Cleaned blocks c.map.mem (USER_HEAP_BASE + 16) := by
    intro p hp hlt
    have hlow := hl.low hp
    omega
  rw [reportUnreachableNonfreedObjects, h.heapBegin, h.heapEnd]
  exact hwalk.restore hl hclean le_rfl false

/-- Marks in headers are the only ones, and the walk clears them. -/
theorem Searching.restored (hl : LaidOut map stop blocks) (h : Searching blocks map roots stop c) (a : Nat) :
    c.reportUnreachableNonfreedObjects.2.map.mem a = map.mem a := by
  obtain ⟨hheaders, hclean, houtside⟩ := (h.searched hl).report hl
  by_cases ha : ∃ p, (blocks p).isSome ∧ a = p - 16
  · obtain ⟨p, hp, rfl⟩ := ha
    have hmark := hheaders.mark p hp
    have heven := ObjectHeader.isObjectChecked_eq_false_iff.mp (hclean p hp)
    have hbyte := (hl.header_byte (hl.headers (.refl _)) hp).1
    exact UInt8.toNat_inj.mp (by omega)
  · have hno : ∀ p, (blocks p).isSome → a ≠ p - 16 := fun p hp heq => ha ⟨p, hp, heq⟩
    rw [houtside a hno, h.marks.outside a hno]

/-- The mark of an object that is not there stays. -/
theorem Searched.foreign_stays (hl : LaidOut map stop blocks) (h : Searched blocks map roots stop c) {q : Nat} (hq : ¬ (blocks q).isSome)
    (hodd : (c.map.mem (q - 16)).toNat % 2 = 1) :
    (c.reportUnreachableNonfreedObjects.2.map.mem (q - 16)).toNat % 2 = 1 := by
  obtain ⟨-, -, houtside⟩ := h.report hl
  rw [houtside (q - 16) fun p hp heq => ?_]
  · exact hodd
  · have hlow := hl.low hp
    exact hq (show p = q by omega ▸ hp)

theorem of_doSlowLeakCheck_ok {fuel : Nat} {x : Bool × LeakCheck} (h : doSlowLeakCheck fuel map roots USER_HEAP_BASE stop = .ok x) :
    ∃ c, traverseUnexploredList fuel ⟨map, firstEntries map roots stop, USER_HEAP_BASE + 16, stop, []⟩ = .ok c ∧
      c.reportUnreachableNonfreedObjects = x := by
  rw [doSlowLeakCheck_eq] at h
  obtain ⟨c, hrun, hc⟩ := Except.of_bind_ok h
  exact ⟨c, hrun, Except.ok.inj hc⟩

/-- The check leaves memory alone if and only if its search comes to objects of the heap only. -/
theorem leaves_alone_iff (hl : LaidOut map stop blocks) :
    LeavesAlone map roots stop ↔ ∀ q, Found map roots stop q → (blocks q).isSome := by
  have hstart : Searching blocks map roots stop ⟨map, firstEntries map roots stop, USER_HEAP_BASE + 16, stop, []⟩ := searching_start hl
  constructor
  · rintro ⟨rounds, hcheck⟩ q hq
    obtain ⟨hasLeakage, c, hrun, hsame⟩ := hcheck rounds le_rfl
    obtain ⟨c', htraverse, hreport⟩ := of_doSlowLeakCheck_ok hrun
    obtain ⟨h, hempty⟩ := (kept_searched hl).traverse (hstart.searched hl) htraverse
    rcases h.either with hs | ⟨q', -, hq', heven, hodd⟩
    · have hprog := hs.progress
      rw [hempty] at hprog
      exact ((hprog.done q).mpr hq).1
    · have hstays := h.foreign_stays hl hq' hodd
      rw [hreport, hsame] at hstays
      omega
  · intro hreal
    obtain ⟨rounds, c, hrun, h, -⟩ := hstart.traverse hl hreal
    refine ⟨rounds, fun fuel hfuel => ⟨c.reportUnreachableNonfreedObjects.1, c.reportUnreachableNonfreedObjects.2, ?_, h.restored hl⟩⟩
    rw [doSlowLeakCheck_eq, Except.bind_of_ok (hrun fuel hfuel)]

theorem leaves_alone_sixteen : ∃ p r, State.start.rt.malloc 0 16 = .ok (p, r) ∧
    LeavesAlone r.memory.heap.map (held p) r.memory.heap.xheap.position := by
  obtain ⟨p, r, size, hmal, -, hl, hu, -⟩ := @single_malloc 16 2 (by unfold WithinLimit; omega) (by decide +kernel)
  exact ⟨p, r, hmal, (leaves_alone_iff hl).mpr fun q hq => (found_spec hl hu hq).1⟩

/-- A register points to an object that is not there and that holds no pointers. -/
theorem foreign_marked (hl : LaidOut map stop blocks) {q : Nat} (hq : ¬ (blocks q).isSome) (hscan : scanOf map q = some q)
    (hal : q % WORD_SIZE = 0) (h₁ : USER_HEAP_BASE + 16 < q) (h₂ : q < stop)
    (hzero : ∀ a ∈ wordsIn map.mem q (q + ObjectHeader.getObjectSize map.mem q), a = 0) :
    ∃ fuel hasLeakage c, doSlowLeakCheck fuel map (held q) USER_HEAP_BASE stop = .ok (hasLeakage, c) ∧
      (c.map.mem (q - 16)).toNat % 2 = 1 := by
  have hfirst : firstEntries map (held q) stop = [q] := by
    simp [firstEntries, rootWords, held, wordsIn, h₁, h₂]
  have hstart : Searching blocks map (held q) stop ⟨map, [q], USER_HEAP_BASE + 16, stop, []⟩ := hfirst ▸ searching_start hl
  have hnone : (wordsIn map.mem q (q + ObjectHeader.getObjectSize map.mem q)).filter
      (isPossibleHeapPointer ⟨map, [], USER_HEAP_BASE + 16, stop, []⟩) = [] := by
    refine List.filter_eq_nil_iff.mpr fun a ha => ?_
    rw [hzero a ha]
    simp [isPossibleHeapPointer]
  -- One round marks the object, and nothing is on the list then.
  obtain ⟨c, hrun, hodd⟩ : ∃ c, traverseUnexploredList 2 ⟨map, [q], USER_HEAP_BASE + 16, stop, []⟩ = .ok c ∧
      (c.map.mem (q - 16)).toNat % 2 = 1 := by
    refine ⟨scan ⟨map, [], USER_HEAP_BASE + 16, stop, []⟩ q, ?_, ObjectHeader.isObjectChecked_iff.mp (isObjectChecked_scan (.inl rfl))⟩
    rcases round_cases (c := ⟨map, [q], USER_HEAP_BASE + 16, stop, []⟩) rfl with ⟨hno, -⟩ | ⟨p, hp, ⟨-, hround⟩ | ⟨hno, -⟩⟩
    · rw [show scanOf map q = none from hno] at hscan
      cases hscan
    · obtain rfl : q = p := Option.some.inj (hscan.symm.trans hp)
      have hempty : (scan ⟨map, [], USER_HEAP_BASE + 16, stop, []⟩ q).unexploredObjects = [] := hnone
      rw [(hround 1).1, traverseUnexploredList, hempty]
    · obtain rfl : q = p := Option.some.inj (hscan.symm.trans hp)
      exact absurd hal hno
  obtain ⟨h, -⟩ := (kept_searched hl).traverse (hstart.searched hl) hrun
  refine ⟨2, c.reportUnreachableNonfreedObjects.1, c.reportUnreachableNonfreedObjects.2, ?_, h.foreign_stays hl hq hodd⟩
  rw [doSlowLeakCheck_eq, hfirst, Except.bind_of_ok hrun]

/-- An object of 32 bytes holds a word that is a sentinel, behind one that is a header for 8 bytes, and a register points behind
    the two: the search marks what it takes for a header, in the object, and the mark stays. -/
theorem mark_stays : ¬ ∀ blocks map roots stop, LaidOut map stop blocks → ∀ fuel hasLeakage c,
    doSlowLeakCheck fuel map roots USER_HEAP_BASE stop = .ok (hasLeakage, c) → Untouched blocks roots map.mem c.map.mem := by
  intro h
  obtain ⟨p, r, size, -, hobj, hl, -, hreach, hzero⟩ := @single_malloc 32 4 (by unfold WithinLimit; omega) (by decide +kernel)
  generalize r.memory.heap.map = map₀ at hl hobj hreach hzero
  generalize r.memory.heap.xheap.position = stop at hl
  have hp := hreach.object.1
  obtain ⟨size', hB⟩ := Option.isSome_iff_exists.mp hp
  have hlow := (hl.placed hB).low
  have hhigh := (hl.placed hB).high
  have hal := hl.aligned hp
  have hle := hl.object hB
  have hobj : ObjectHeader.getObjectSize map₀.mem p = 32 := hobj
  rw [hobj] at hle hzero
  simp only [WORD_SIZE] at hal
  have hword : ∀ w, w % 8 = 0 → p ≤ w → w + 8 ≤ p + 32 → map₀.mem.read w 8 = 0 := fun w h₁ h₂ h₃ =>
    hzero _ ((mem_wordsIn hal).mpr ⟨w, h₁, h₂, h₃, rfl⟩)
  obtain ⟨m', hm'⟩ : ∃ m', m' = Mem.write (map₀.mem.write (p + 12) 4 8) (p + 16) 8 SENTINEL_WORD := ⟨_, rfl⟩
  have hsame : ∀ a, a < p + 12 ∨ p + 24 ≤ a → m' a = map₀.mem a := by
    intro a ha
    rw [hm']
    rcases ha with ha | ha
    · rw [Mem.write_of_lt (by omega), Mem.write_of_lt ha]
    · rw [Mem.write_of_ge (by omega), Mem.write_of_ge (by omega)]
  have hl' : LaidOut { map₀ with mem := m' } stop (single p size) := by
    refine hl.write hB (fun a ha => hsame a (by omega)) fun w hw h₁ h₂ => ?_
    refine Bool.eq_false_of_not_eq_true fun hbit => ?_
    have hin := hl.inside hB hw h₁ h₂ hbit
    rw [SentinelMap.word, hword w hw.2 h₁ (by omega)] at hin
    exact absurd hin (by decide)
  have hgood : ObjectHeader.isGoodObject m' (p + 24) = true := by
    rw [ObjectHeader.isGoodObject, beq_iff_eq, show p + 24 - 8 = p + 16 by omega, hm', Mem.read_write_of_lt _ _ (by decide)]
  have hsize : ObjectHeader.getObjectSize m' (p + 24) = 8 := by
    rw [ObjectHeader.getObjectSize, show p + 24 - 12 = p + 12 by omega, ← Mem.read_write_of_lt map₀.mem (p + 12) (show 8 < 256 ^ 4 by decide), hm']
    exact Mem.read_congr (Mem.agree_write_left le_rfl)
  have hzero' : m' (p + 8) = 0 := by
    have hread : (map₀.mem (p + 8)).toNat + 256 * map₀.mem.read (p + 8 + 1) 7 = 0 := hword (p + 8) (by omega) (by omega) (by omega)
    rw [hsame _ (by omega)]
    exact UInt8.toNat_inj.mp (Nat.eq_zero_of_add_eq_zero_right hread)
  have hq : ¬ (single p size (p + 24)).isSome := fun hq => by
    have := single_isSome hq
    omega
  have hscan : scanOf { map₀ with mem := m' } (p + 24) = some (p + 24) := by
    refine scanOf_eq_some.mpr ⟨?_, doCheckObject_iff.mpr ⟨by rw [hsize]; decide, ?_⟩⟩
    · unfold objectOf
      rw [if_neg (not_not.mpr hgood), if_pos (ObjectHeader.isValidAddr_iff.mpr ⟨by rw [hsize]; exact ⟨3, rfl⟩, le_rfl, by rw [hsize]; omega⟩)]
    · rw [ObjectHeader.isObjectChecked_eq_false_iff, show p + 24 - 16 = p + 8 by omega]
      dsimp only
      rw [hzero']
      rfl
  obtain ⟨fuel, hasLeakage, c, hrun, hodd⟩ := foreign_marked hl' hq hscan (by simp only [WORD_SIZE]; omega) (by omega) (by omega)
    fun a ha => by
      obtain ⟨w, hw, h₁, h₂, ha⟩ := (mem_wordsIn (by simp only [WORD_SIZE]; omega)).mp ha
      simp only [hsize, WORD_SIZE] at hw h₂ ha
      rw [ha, ← hword w hw (by omega) (by omega)]
      exact Mem.read_congr fun a h₃ _ => hsame a (by omega)
  have hobj' : ObjectHeader.getObjectSize m' p = 32 := by
    rw [← hobj]
    exact Mem.read_congr fun a _ h₂ => hsame a (by omega)
  have hkept := ((h _ _ _ _ hl' fuel hasLeakage c hrun).1 p hp).2 (p + 8) (by omega) (by dsimp only; omega)
  rw [show p + 24 - 16 = p + 8 by omega, ← hkept] at hodd
  dsimp only at hodd
  rw [hzero'] at hodd
  cases hodd

end LeakCheck

end DoubleTake
