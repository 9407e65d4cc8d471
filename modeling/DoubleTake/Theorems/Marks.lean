import DoubleTake.Theorems.Runs

/-! Marks that the heap does not look at. On a map with more items marked its calls end as they do without them, up to these
    items, and the search for the start of an object passes over them when they are those of `memalign`. -/

namespace DoubleTake

open SentinelMap XMemory Transition

/-! ### More items marked -/

variable {E : Nat → Prop} {strict : Bool} {B : Layout}

/-- The same result, and states that are related. -/
def Returns {α σ τ : Type} (R : σ → τ → Prop) (u : α × σ) (v : α × τ) : Prop := v.1 = u.1 ∧ R u.2 v.2

namespace SentinelMap

variable {s s' : SentinelMap} {a : Nat}

/-- The second map is the first one with the items marked besides. -/
structure Plus (E : Nat → Prop) (s s' : SentinelMap) : Prop where
  mem : s'.mem = s.mem
  wp : s'.wp = s.wp
  bits : ∀ item, s'.bitmap.isBitSet item = true ↔ s.bitmap.isBitSet item = true ∨ E item

theorem Plus.setMem (h : Plus E s s') (m : Mem) : Plus E { s with mem := m } { s' with mem := m } := ⟨rfl, h.wp, h.bits⟩

theorem Plus.store (h : Plus E s s') (a v : Nat) : Plus E (s.store a v) (s'.store a v) := by
  refine ⟨?_, h.wp, h.bits⟩
  show s'.mem.write a WORD_SIZE v = s.mem.write a WORD_SIZE v
  rw [h.mem]

theorem Plus.tryToSet (h : Plus E s s') (a : Nat) : Plus E (s.tryToSet a) (s'.tryToSet a) := by
  refine ⟨h.mem, h.wp, fun item => ?_⟩
  rw [tryToSet_isBitSet, tryToSet_isBitSet, h.bits, or_assoc]

/-- One more item. -/
theorem Plus.mark {E' : Nat → Prop} (h : Plus E s s') (hE : ∀ item, E' item ↔ item = getIndex a ∨ E item) :
    Plus E' s (s'.tryToSet a) := by
  refine ⟨h.mem, h.wp, fun item => ?_⟩
  rw [tryToSet_isBitSet, h.bits, hE, or_left_comm]

/-- One item less, which the first map does not have. -/
theorem Plus.unmark {E' : Nat → Prop} (h : Plus E s s') (hE : ∀ item, E' item ↔ item ≠ getIndex a ∧ E item)
    (ha : s.bitmap.isBitSet (getIndex a) = false) : Plus E' s (s'.clear a) := by
  refine ⟨h.mem, h.wp, fun item => ?_⟩
  rw [clear_isBitSet, h.bits, hE, and_or_left]
  refine or_congr_left (and_iff_right_of_imp fun hset => ?_)
  rintro rfl
  rw [ha] at hset
  cases hset

theorem Plus.clear (h : Plus E s s') (ha : ¬ E (getIndex a)) : Plus E (s.clear a) (s'.clear a) := by
  refine ⟨h.mem, h.wp, fun item => ?_⟩
  rw [clear_isBitSet, clear_isBitSet, h.bits]
  constructor
  · rintro ⟨hne, hset | hitem⟩
    · exact .inl ⟨hne, hset⟩
    · exact .inr hitem
  · rintro (⟨hne, hset⟩ | hitem)
    · exact ⟨hne, .inl hset⟩
    · refine ⟨?_, .inr hitem⟩
      rintro rfl
      exact ha hitem

theorem Plus.setSentinelAt (h : Plus E s s') (a : Nat) : Plus E (s.setSentinelAt a) (s'.setSentinelAt a) :=
  (h.store a SENTINEL_WORD).tryToSet a

theorem Plus.setupSentinels (h : Plus E s s') (ptr objectsize : Nat) :
    Plus E (s.setupSentinels ptr objectsize) (s'.setupSentinels ptr objectsize) :=
  (((h.store _ _).store _ _).tryToSet _).tryToSet _

theorem Plus.setSentinels (h : Plus E s s') (ptr blockSize sz : Nat) :
    Plus E (setSentinels s ptr blockSize sz) (setSentinels s' ptr blockSize sz) := by
  unfold XMemory.setSentinels
  dsimp only
  split
  · exact h.setSentinelAt _
  · have hmark : Plus E ({ s with mem := fillMagicBytes s.mem (ptr + sz) (WORD_SIZE - sz % WORD_SIZE) }.markSentinelAt
        (ptr + sz - sz % WORD_SIZE)) ({ s' with mem := fillMagicBytes s'.mem (ptr + sz) (WORD_SIZE - sz % WORD_SIZE) }.markSentinelAt
        (ptr + sz - sz % WORD_SIZE)) := by
      rw [h.mem]
      exact (h.setMem _).tryToSet _
    split
    · exact hmark.setSentinelAt _
    · exact hmark

/-- Cleaning pages that lie behind the items. -/
theorem Plus.cleanup {start size : Nat} (h : Plus E s s') (hE : ∀ item, E item → item < getIndex start) :
    s.cleanup start size = none ∧ s'.cleanup start size = none ∨
      ∃ t t', s.cleanup start size = some t ∧ s'.cleanup start size = some t' ∧ Plus E t t' := by
  unfold SentinelMap.cleanup
  by_cases haligned : (Bitmap.getIndexes (getIndex start)).2 = 0 ∧ (Bitmap.getIndexes (getIndex start + getBitSize size)).2 = 0
  · refine .inr ⟨_, _, congrArg _ (if_pos haligned), congrArg _ (if_pos haligned), h.mem, h.wp, fun item => ?_⟩
    have hold := h.bits item
    rw [Bitmap.isBitSet_eq, Bitmap.isBitSet_eq] at hold ⊢
    dsimp only
    split
    · rename_i hin
      have hnot : ¬ E item := by
        intro hitem
        have hlt := hE item hitem
        simp only [Bitmap.getIndexes, WORDBITS] at hin haligned
        omega
      simp [hnot]
    · exact hold
  · exact .inl ⟨congrArg _ (if_neg haligned), congrArg _ (if_neg haligned)⟩

theorem Plus.cleanGuard {ptr bs sz : Nat} (h : Plus E s s') (hE : ∀ w, GuardWord ptr bs sz w → ¬ E (getIndex w)) :
    Plus E (s.cleanGuard ptr bs sz) (s'.cleanGuard ptr bs sz) := by
  unfold SentinelMap.cleanGuard
  split
  · rename_i hnext
    exact (h.clear (hE _ (.inr ⟨hnext.1, hnext.2, rfl⟩))).clear (hE _ (.inl rfl))
  · exact h.clear (hE _ (.inl rfl))

theorem Plus.addWatchpoint (h : Plus E s s') (a : Nat) (objtype : FaultyObjectType) (objectstart : Nat) :
    Plus E (s.addWatchpoint a objtype objectstart) (s'.addWatchpoint a objtype objectstart) := by
  refine ⟨h.mem, ?_, h.bits⟩
  simp only [SentinelMap.addWatchpoint, word, h.mem, h.wp]

theorem Plus.hasUsageAfterFree (h : Plus E s s') (object : FreeObject) :
    Returns (Plus E) (XMemory.hasUsageAfterFree s object) (XMemory.hasUsageAfterFree s' object) := by
  unfold XMemory.hasUsageAfterFree
  rw [h.mem]
  dsimp only
  refine ⟨rfl, ?_⟩
  dsimp only
  generalize brokenCanaries s.mem object = broken
  induction broken generalizing s s' with
  | nil => exact h
  | cons a broken ih => exact ih (h.addWatchpoint a .useAfterFree object.ptr)

end SentinelMap

/-! ### Allocation -/

namespace XPHeap

variable {h h' : XPHeap}

def Plus (E : Nat → Prop) (h h' : XPHeap) : Prop := ∃ map', SentinelMap.Plus E h.map map' ∧ h' = { h with map := map' }

theorem Plus.chunkMalloc (hp : Plus E h h') (hE : ∀ item, E item → item < getIndex h.xheap.position) (sz : Nat) :
    Except.Alike (Returns (Plus E)) (h.chunkMalloc sz) (h'.chunkMalloc sz) := by
  obtain ⟨map', hmap, rfl⟩ := hp
  unfold XPHeap.chunkMalloc
  dsimp only
  split
  · exact .error
  · split
    · exact .error
    · rcases hmap.cleanup hE with ⟨hnone, hnone'⟩ | ⟨t, t', ht, ht', hplus⟩
      · rw [hnone, hnone']
        exact .error
      · rw [ht, ht']
        exact .ok ⟨rfl, t', hplus, rfl⟩

theorem Plus.moreArena (hp : Plus E h h') (hE : ∀ item, E item → item < getIndex h.xheap.position) (tid sz : Nat) :
    Except.Alike (Plus E) (h.moreArena tid sz) (h'.moreArena tid sz) := by
  have hp₀ := hp
  obtain ⟨map', hmap, rfl⟩ := hp
  unfold XPHeap.moreArena
  dsimp only
  split
  · refine (hp₀.chunkMalloc hE _).bind ?_
    rintro ⟨arena, u⟩ ⟨arena', v⟩ - ⟨heq, hplus⟩
    cases heq
    obtain ⟨map₁, hmap₁, rfl⟩ := hplus
    exact .ok ⟨map₁, hmap₁, rfl⟩
  · exact .ok hp₀

theorem Plus.zoneMalloc (hp : Plus E h h') (hE : ∀ item, E item → item < getIndex h.xheap.position) (tid sz : Nat) :
    Except.Alike (Returns (Plus E)) (h.zoneMalloc tid sz) (h'.zoneMalloc tid sz) := by
  refine (hp.moreArena hE tid _).bind ?_
  rintro u v - ⟨map₁, hmap₁, rfl⟩
  dsimp only
  cases (u.zones tid).arenaSpace with
  | none => exact .error
  | some ptr => exact .ok ⟨rfl, map₁, hmap₁, rfl⟩

theorem Plus.adaptMalloc (hp : Plus E h h') (hE : ∀ item, E item → item < getIndex h.xheap.position) (tid sz : Nat) :
    Except.Alike (Returns (Plus E)) (h.adaptMalloc tid sz) (h'.adaptMalloc tid sz) := by
  refine (hp.zoneMalloc hE tid _).bind ?_
  rintro ⟨ptr, u⟩ ⟨ptr', v⟩ - ⟨heq, map₁, hmap₁, hv⟩
  cases heq
  dsimp only at hv ⊢
  subst hv
  have hmap : SentinelMap.Plus E
      ({ u.map with mem := ObjectHeader.construct u.map.mem ptr sz }.setupSentinels (ptr + ObjectHeader.headerSize) sz)
      ({ map₁ with mem := ObjectHeader.construct map₁.mem ptr sz }.setupSentinels (ptr + ObjectHeader.headerSize) sz) := by
    rw [hmap₁.mem]
    exact (hmap₁.setMem _).setupSentinels _ _
  dsimp only
  rw [hmap.mem]
  split
  · exact .ok ⟨rfl, _, hmap, rfl⟩
  · exact .error

theorem Plus.segMalloc (hp : Plus E h h') (hE : ∀ item, E item → item < getIndex h.xheap.position) (tid sz : Nat) :
    Except.Alike (Returns (Plus E)) (h.segMalloc tid sz) (h'.segMalloc tid sz) := by
  have hp₀ := hp
  obtain ⟨map', hmap, rfl⟩ := hp
  unfold XPHeap.segMalloc
  dsimp only
  split
  · exact .error
  · split
    · cases h.bins tid (Kingsley.size2Class sz) with
      | nil => exact hp₀.adaptMalloc hE tid _
      | cons ptr rest => exact .ok ⟨rfl, map', hmap, rfl⟩
    · exact hp₀.adaptMalloc hE tid _

theorem Plus.malloc (hp : Plus E h h') (hE : ∀ item, E item → item < getIndex h.xheap.position) (tid sz : Nat) :
    Except.Alike (Returns (Plus E)) (h.malloc tid sz) (h'.malloc tid sz) := by
  unfold XPHeap.malloc
  split
  · exact .ok ⟨rfl, hp⟩
  · split
    · exact .ok ⟨rfl, hp⟩
    · exact hp.segMalloc hE tid _

theorem Plus.segFree (hp : Plus E h h') (tid ptr : Nat) : Except.Alike (Plus E) (h.segFree tid ptr) (h'.segFree tid ptr) := by
  have hp₀ := hp
  obtain ⟨map', hmap, rfl⟩ := hp
  have hsize : ({ h with map := map' } : XPHeap).getSize ptr = h.getSize ptr := by
    unfold XPHeap.getSize
    rw [hmap.mem]
  unfold XPHeap.segFree
  rw [hsize]
  refine (Except.Alike.refl (h.getSize ptr)).bind ?_
  rintro objectSize _ - rfl
  split
  · exact .ok hp₀
  · exact .ok ⟨_, hmap.store _ _, rfl⟩

end XPHeap

/-! ### The quarantine on two heaps -/

namespace Quarantine

variable {H H' : Type} {R : H → H' → Prop} {ops : QuarantineHeap H} {ops' : QuarantineHeap H'} {h : H} {h' : H'}

/-- The operations of the two heaps keep the relation, and find the same. -/
structure Matching (R : H → H' → Prop) (ops : QuarantineHeap H) (ops' : QuarantineHeap H') : Prop where
  mark : ∀ {h h'}, R h h' → ∀ ptr size, R (ops.markFreeObject h ptr size) (ops'.markFreeObject h' ptr size)
  check : ∀ {h h'}, R h h' → ∀ object, Returns R (ops.hasUsageAfterFree h object) (ops'.hasUsageAfterFree h' object)
  release : ∀ {h h'}, R h h' → ∀ ptr, Except.Alike R (ops.realfree h ptr) (ops'.realfree h' ptr)
  rollback : ∀ {h h'}, R h h' → Except.Alike R (ops.rollback h) (ops'.rollback h')

theorem Matching.freeLRObject (hm : Matching R ops ops') (hR : R h h') (q : Quarantine) :
    Except.Alike (Returns R) (freeLRObject ops q h) (freeLRObject ops' q h') := by
  obtain ⟨hsame, hR'⟩ := hm.check hR q.getLRObject
  unfold Quarantine.freeLRObject
  dsimp only
  rw [hsame]
  split
  · exact (hm.rollback hR').bind fun _ _ _ hR₁ => .ok ⟨rfl, hR₁⟩
  · exact (hm.release hR' _).bind fun _ _ _ hR₁ => .ok ⟨rfl, hR₁⟩

theorem Matching.evict (hm : Matching R ops ops') (hR : R h h') (fuel : Nat) (q : Quarantine) :
    Except.Alike (Returns R) (evict ops fuel q h) (evict ops' fuel q h') := by
  induction fuel generalizing q h h' with
  | zero => exact .error
  | succ fuel ih =>
    by_cases hfull : q.Full
    · rw [evict_full hfull, evict_full hfull]
      refine (hm.freeLRObject hR q).bind ?_
      rintro ⟨q₁, h₁⟩ ⟨q₁', h₁'⟩ - ⟨rfl, hR₁⟩
      exact ih hR₁ _
    · rw [evict_not_full hfull, evict_not_full hfull]
      exact .ok ⟨rfl, hR⟩

theorem Matching.addFreeObject (hm : Matching R ops ops') (hR : R h h') (q : Quarantine) (ptr size : Nat) :
    Except.Alike (Returns (Returns R)) (addFreeObject ops q h ptr size) (addFreeObject ops' q h' ptr size) := by
  unfold Quarantine.addFreeObject Quarantine.addFreeObjectWithin
  split
  · exact .ok ⟨rfl, rfl, hR⟩
  · split
    · exact .error
    · refine (hm.evict (hm.mark hR ptr size) _ _).bind ?_
      rintro ⟨q₁, h₁⟩ ⟨q₁', h₁'⟩ - ⟨rfl, hR₁⟩
      exact .ok ⟨rfl, rfl, hR₁⟩

end Quarantine

/-! ### The memory -/

namespace XMemory

variable {x x' : XMemory}

def Plus (E : Nat → Prop) (x x' : XMemory) : Prop :=
  ∃ map', SentinelMap.Plus E x.heap.map map' ∧ x' = { x with heap := { x.heap with map := map' } }

theorem Plus.note (hp : Plus E x x') (c : Check) (result : Bool) {map map' : SentinelMap} (hmap : SentinelMap.Plus E map map') :
    Plus E (x.note c result map) (x'.note c result map') := by
  obtain ⟨map₁, -, rfl⟩ := hp
  exact ⟨map', hmap, rfl⟩

theorem Plus.rollback (hp : Plus E x x') : Except.Alike (Plus E) x.rollback x'.rollback := by
  obtain ⟨map', hmap, rfl⟩ := hp
  unfold XMemory.rollback XMemory.recover
  dsimp only
  rw [hmap.mem, congrArg installWatchpoints hmap.wp]
  cases x.perf.openAll (installWatchpoints x.heap.map.wp) with
  | error f => exact .error
  | ok perf => exact .ok ⟨_, hmap.setMem _, rfl⟩

theorem Plus.quarantineHeap (tid : Nat) : Quarantine.Matching (Plus E) (quarantineHeap tid) (quarantineHeap tid) where
  mark := by
    rintro x x' ⟨map', hmap, rfl⟩ ptr size
    refine ⟨_, hmap.setMem (markFreeObject x.heap.map.mem ptr size), ?_⟩
    unfold XMemory.quarantineHeap
    dsimp only
    rw [hmap.mem]
  check := by
    rintro x x' hp object
    have hcheck : Returns (SentinelMap.Plus E) (XMemory.hasUsageAfterFree x.heap.map object)
        (XMemory.hasUsageAfterFree x'.heap.map object) := by
      obtain ⟨map', hmap, rfl⟩ := hp
      exact hmap.hasUsageAfterFree object
    unfold XMemory.quarantineHeap
    dsimp only
    rw [hcheck.1]
    exact ⟨rfl, hp.note _ _ hcheck.2⟩
  release := by
    rintro x x' ⟨map', hmap, rfl⟩ ptr
    refine (XPHeap.Plus.segFree ⟨map', hmap, rfl⟩ tid ptr).bind ?_
    rintro u v - ⟨map₁, hmap₁, rfl⟩
    exact .ok ⟨map₁, hmap₁, rfl⟩
  rollback := by
    rintro x x' hp
    exact hp.rollback

theorem Plus.realmalloc (hp : Plus E x x') (hE : ∀ item, E item → item < getIndex x.heap.xheap.position) (tid sz : Nat) :
    Except.Alike (Returns (Plus E)) (x.realmalloc tid sz) (x'.realmalloc tid sz) := by
  obtain ⟨map', hmap, rfl⟩ := hp
  have hheap : XPHeap.Plus E x.heap { x.heap with map := map' } := ⟨map', hmap, rfl⟩
  unfold XMemory.realmalloc
  dsimp only
  generalize (if sz = 0 then 1 else sz) = n
  refine (hheap.malloc hE tid _).bind ?_
  rintro ⟨ptr, u⟩ ⟨ptr', v⟩ - ⟨heq, map₁, hmap₁, hv⟩
  cases heq
  dsimp only at hv ⊢
  subst hv
  dsimp only
  rw [hmap₁.mem]
  split
  · exact .error
  · split
    · exact .error
    · have hset := hmap₁.setMem (ObjectHeader.setObjectSize u.map.mem ptr n)
      refine .ok ⟨rfl, _, ?_, rfl⟩
      dsimp only
      split
      · exact hset.setSentinels _ _ _
      · exact hset

end XMemory

/-! ### The search for the start of an object -/

/-- The items are those of words that `memalign` has put its sentinel into. -/
def SentinelMap.Skipped (E : Nat → Prop) (s : SentinelMap) : Prop :=
  ∀ item, E item → s.word (getHeapAddressFromItem item) = MEMALIGN_SENTINEL_WORD

namespace SentinelMap

variable {s s' : SentinelMap} {fuel fuel' item i : Nat}

theorem findObjectStartFrom_none (h : s.bitmap.getLastBit item = none) : s.findObjectStartFrom fuel item = none := by
  cases fuel with
  | zero => rfl
  | succ fuel => simp only [SentinelMap.findObjectStartFrom, h]

/-- From items between which nothing is marked the search comes to the same. -/
theorem findObjectStartFrom_gap (hle : i ≤ item) (hgap : ∀ k, i ≤ k → k < item → s.bitmap.isBitSet k = false) :
    s.findObjectStartFrom (fuel + 1) item = s.findObjectStartFrom (fuel + 1) i := by
  have hlast : s.bitmap.getLastBit item = s.bitmap.getLastBit i := by
    rw [Bitmap.getLastBit_eq, Bitmap.getLastBit_eq, Bits.lastSet_of_gap hle hgap]
  simp only [SentinelMap.findObjectStartFrom, hlast]

theorem Plus.unset (h : Plus E s s') (hset : s'.bitmap.isBitSet item = false) : s.bitmap.isBitSet item = false := by
  by_contra hold
  rw [(h.bits item).mpr (.inl (Bool.eq_true_of_not_eq_false hold))] at hset
  cases hset

theorem Plus.findObjectStartFrom (h : Plus E s s') (hE : Skipped E s) (hle : item ≤ fuel) (hle' : item ≤ fuel') :
    s'.findObjectStartFrom fuel' item = s.findObjectStartFrom fuel item := by
  induction fuel' generalizing fuel item with
  | zero =>
    obtain rfl : item = 0 := by omega
    have hnone : s.bitmap.getLastBit 0 = none := by
      rw [Bitmap.getLastBit_eq]
      rfl
    rw [findObjectStartFrom_none hnone]
    rfl
  | succ fuel' ih =>
    have hword : ∀ a, s'.word a = s.word a := fun a => by simp only [word, h.mem]
    cases hlast' : s'.bitmap.getLastBit item with
    | none =>
      have hlast : s.bitmap.getLastBit item = none := by
        rw [Bitmap.getLastBit_eq, Bits.lastSet_eq_none] at hlast' ⊢
        exact fun k hk => h.unset (hlast' k hk)
      rw [findObjectStartFrom_none hlast', findObjectStartFrom_none hlast]
    | some i =>
      have hfound := hlast'
      rw [Bitmap.getLastBit_eq, Bits.lastSet_eq_some] at hfound
      obtain ⟨hi, hset, hgap'⟩ := hfound
      have hgap : ∀ k, i < k → k < item → s.bitmap.isBitSet k = false := fun k h₁ h₂ => h.unset (hgap' k h₁ h₂)
      obtain ⟨fuel, rfl⟩ : ∃ n, fuel = n + 1 := ⟨fuel - 1, by omega⟩
      by_cases hold : s.bitmap.isBitSet i = true
      · have hlast : s.bitmap.getLastBit item = some i := by
          rw [Bitmap.getLastBit_eq, Bits.lastSet_eq_some]
          exact ⟨hi, hold, hgap⟩
        have hrest := @ih fuel i (by omega) (by omega)
        simp only [SentinelMap.findObjectStartFrom, hlast', hlast, hword, hrest]
      -- A word that is marked besides: the search goes on from there, and the one in the first map starts as if from there.
      · have hskip : s.word (getHeapAddressFromItem i) = MEMALIGN_SENTINEL_WORD :=
          hE i (((h.bits i).mp hset).resolve_left hold)
        have hsame : s.findObjectStartFrom (fuel + 1) item = s.findObjectStartFrom (fuel + 1) i := by
          refine findObjectStartFrom_gap (by omega) fun k h₁ h₂ => ?_
          rcases Nat.eq_or_lt_of_le h₁ with rfl | hlt
          · exact Bool.eq_false_of_not_eq_true hold
          · exact hgap k hlt h₂
        rw [hsame, SentinelMap.findObjectStartFrom, hlast']
        dsimp only
        rw [hword, hskip, if_neg (by decide), if_pos rfl]
        exact ih (by omega) (by omega)

theorem Plus.findObjectStartAddr (h : Plus E s s') (hE : Skipped E s) (a : Nat) : s'.findObjectStartAddr a = s.findObjectStartAddr a :=
  h.findObjectStartFrom hE le_rfl le_rfl

/-- The scan makes nothing of such marks. -/
theorem Plus.not_reported {h : XPHeap} (hp : Plus E h.map s') (hE : Skipped E h.map) (hi : HeapInv strict h B) (item : Nat) :
    ¬ s'.Reported item := by
  rintro ⟨⟨hset, hpre⟩, -, st, hst, hov⟩
  have hword : ∀ a, s'.isPreset a = h.map.isPreset a := fun a => by simp only [isPreset, word, hp.mem]
  rw [hword] at hpre
  rcases (hp.bits item).mp hset with hold | hitem
  · rw [hp.findObjectStartAddr hE] at hst
    rw [overflowed_congr hp.mem, hp.mem] at hov
    exact hi.not_foundOverflowed ⟨hold, hpre⟩ ⟨st, hst, hov⟩
  · rw [isPreset, hE item hitem] at hpre
    simp at hpre

end SentinelMap

/-! ### The calls of the threads -/

/-- What `free` does with the start of the object. -/
def Runtime.release (r : Runtime) (tid ptr : Nat) : Except Fault Runtime := do
  let (hasOverflow, r) ← r.checkObject ptr
  if hasOverflow then .ok r
  else
    let r ← r.pheapFree tid ptr
    .ok (r.setMem (ObjectHeader.setObjectFree r.memory.heap.map.mem ptr))

theorem Runtime.free_eq {r : Runtime} {ptr origptr : Nat} {map : SentinelMap} (hin : inRange ptr = true)
    (hget : getObjectPtrAtFree r.memory.heap.map ptr = (origptr, map)) (tid : Nat) :
    r.free tid ptr = (r.setMap map).release tid origptr := by
  rw [Runtime.free, if_neg (not_not.mpr hin), hget]
  rfl

/-- The items lie in objects of the application other than `p`. -/
def Within (E : Nat → Prop) (B : Layout) (p : Nat) : Prop :=
  ∀ item, E item → ∃ q size w, q ≠ p ∧ B q = some ⟨size, .live⟩ ∧ HeapWord w ∧ q ≤ w ∧ w < q + size ∧ item = getIndex w

section
variable {h : XPHeap} {p : Nat}

theorem Within.keeps {B' : Layout} {p' : Nat} (hw : Within E B p) (hk : ∀ q size, q ≠ p → B q = some ⟨size, .live⟩ →
    q ≠ p' ∧ B' q = some ⟨size, .live⟩) : Within E B' p' := by
  intro item hitem
  obtain ⟨q, size, w, hne, hB, hin⟩ := hw item hitem
  obtain ⟨hne', hB'⟩ := hk q size hne hB
  exact ⟨q, size, w, hne', hB', hin⟩

/-- The heap reaches beyond them. -/
theorem Within.below (hw : Within E B p) (hi : HeapInv strict h B) {item : Nat} (hitem : E item) :
    item < getIndex h.xheap.position := by
  obtain ⟨q, size, w, -, hB, hword, h₁, h₂, rfl⟩ := hw item hitem
  have hhigh := (hi.placed hB).high
  have hlow := hword.1
  dsimp only at hhigh
  simp only [getIndex, WORD_SIZE]
  omega

/-- The block of `p` has none of them. -/
theorem Within.avoids (hw : Within E B p) (hi : HeapInv strict h B) {b : Block} (hB : B p = some b) {w : Nat} (hword : HeapWord w)
    (hin : InBlock p b.size w) : ¬ E (getIndex w) := by
  intro hitem
  obtain ⟨q, size, w', hne, hq, hword', h₁, h₂, heq⟩ := hw _ hitem
  have hsame : w = w' := (getIndex_eq_iff hword hword').mp heq
  have hapart := hi.apart hB hq (Ne.symm hne)
  unfold InBlock at hin
  dsimp only at hapart
  omega

end

namespace Runtime

variable {r r' : Runtime} {live : List Nat} {p size : Nat}

def Plus (E : Nat → Prop) (r r' : Runtime) : Prop := ∃ map', SentinelMap.Plus E r.memory.heap.map map' ∧ r' = r.setMap map'

theorem Plus.map (hp : Plus E r r') : SentinelMap.Plus E r.memory.heap.map r'.memory.heap.map := by
  obtain ⟨map', hmap, rfl⟩ := hp
  exact hmap

theorem Plus.memory (hp : Plus E r r') : XMemory.Plus E r.memory r'.memory := by
  obtain ⟨map', hmap, rfl⟩ := hp
  exact ⟨map', hmap, rfl⟩

theorem Plus.setMap (hp : Plus E r r') {E' : Nat → Prop} {map map' : SentinelMap} (hmap : SentinelMap.Plus E' map map') :
    Plus E' (r.setMap map) (r'.setMap map') := by
  obtain ⟨map₁, -, rfl⟩ := hp
  exact ⟨map', hmap, rfl⟩

theorem Plus.setMem (hp : Plus E r r') (m : Mem) : Plus E (r.setMem m) (r'.setMem m) := hp.setMap (hp.map.setMem m)

theorem Plus.of_memory {x x' : XMemory} (hx : XMemory.Plus E x x') (qlist : Nat → Quarantine) : Plus E ⟨x, qlist⟩ ⟨x', qlist⟩ := by
  obtain ⟨map', hmap, rfl⟩ := hx
  exact ⟨map', hmap, rfl⟩

theorem Plus.qlist (hp : Plus E r r') : r'.qlist = r.qlist := by
  obtain ⟨map', -, rfl⟩ := hp
  rfl

theorem Plus.malloc (hp : Plus E r r') (hw : Within E B p) (hi : HeapInv strict r.memory.heap B) (tid sz : Nat) :
    Except.Alike (Returns (Plus E)) (r.malloc tid sz) (r'.malloc tid sz) := by
  refine (hp.memory.realmalloc (fun _ => hw.below hi) tid sz).bind ?_
  rintro ⟨ptr, x⟩ ⟨ptr', x'⟩ - ⟨rfl, hx⟩
  have hq := hp.qlist
  refine .ok ⟨rfl, ?_⟩
  dsimp only
  rw [hq]
  exact Plus.of_memory hx r.qlist

theorem Plus.checked (hp : Plus E r r') (hw : Within E B p) (h : MemoryInv strict r live B) (hB : B p = some ⟨size, .live⟩) :
    Plus E (r.checked p size) (r'.checked p size) := by
  have hpl := h.heap.placed hB
  have hlow := hpl.low
  have hal := hpl.aligned
  have hmod := hpl.size.bounds.2.1
  have hle := ((h.heap.block hB).live rfl).le
  dsimp only at hmod hle
  unfold Runtime.checked
  dsimp only
  rw [hp.map.mem, hp.qlist]
  refine Plus.of_memory (hp.memory.note _ _ (hp.map.cleanGuard fun w hg => ?_)) r.qlist
  obtain ⟨h₁, h₂, h₃⟩ := hg.bounds (by omega) hle (by omega)
  refine hw.avoids h.heap hB ⟨by simp only [USER_HEAP_BASE] at *; omega, h₃⟩ ⟨?_, ?_⟩
  · omega
  · dsimp only
    omega

theorem Plus.checkObject (hp : Plus E r r') (h : MemoryInv strict r live B) (hB : B p = some ⟨size, .live⟩) :
    r'.checkObject p = .ok (false, r'.checked p size) := by
  have hok := h.heap.block hB
  have hsize : ObjectHeader.getSize r.memory.heap.map.mem p = size := hok.size
  have hle := (hok.live rfl).le
  have hint := (hok.live rfl).intact
  have hmax := (h.heap.placed hB).size.bounds.2.2
  dsimp only at hmax hle hint
  rw [← hp.map.mem] at hsize hle hint
  rw [Runtime.checkObject, checkOverflowAndCleanSentinels_intact hsize hle (by omega) hint]
  rfl

theorem Plus.pheapFree (hp : Plus E r r') (tid ptr : Nat) : Except.Alike (Plus E) (r.pheapFree tid ptr) (r'.pheapFree tid ptr) := by
  have hsize : r'.memory.heap.getSize ptr = r.memory.heap.getSize ptr := by
    unfold XPHeap.getSize
    rw [hp.map.mem]
  have hq := hp.qlist
  unfold Runtime.pheapFree
  rw [hsize, hq]
  refine (Except.Alike.refl (r.memory.heap.getSize ptr)).bind ?_
  rintro size _ - rfl
  refine ((XMemory.Plus.quarantineHeap tid).addFreeObject hp.memory (r.qlist tid) ptr size).bind ?_
  rintro ⟨added, q, x⟩ ⟨added', q', x'⟩ - ⟨hadded, hq', hx⟩
  dsimp only at hadded hq' hx ⊢
  subst hadded hq'
  split
  · exact .ok (Plus.of_memory hx _)
  · obtain ⟨map', hmap, rfl⟩ := hx
    refine (XPHeap.Plus.segFree ⟨map', hmap, rfl⟩ tid ptr).bind ?_
    rintro u v - ⟨map₁, hmap₁, rfl⟩
    exact .ok (Plus.of_memory ⟨map₁, hmap₁, rfl⟩ _)

theorem Plus.release (hp : Plus E r r') (hw : Within E B p) (h : MemoryInv strict r live B) (hB : B p = some ⟨size, .live⟩) (tid : Nat) :
    Except.Alike (Plus E) (r.release tid p) (r'.release tid p) := by
  unfold Runtime.release
  rw [Except.bind_of_ok (Runtime.checkObject_spec h hB), Except.bind_of_ok (hp.checkObject h hB)]
  dsimp only
  rw [if_neg Bool.false_ne_true, if_neg Bool.false_ne_true]
  refine ((hp.checked hw h hB).pheapFree tid p).bind fun r₁ r₁' _ hp₁ => ?_
  have hset := hp₁.setMem (ObjectHeader.setObjectFree r₁.memory.heap.map.mem p)
  rw [hp₁.map.mem]
  exact .ok hset

theorem Plus.free (hp : Plus E r r') (hw : Within E B p) (h : MemoryInv strict r live B) (hB : B p = some ⟨size, .live⟩) (tid : Nat) :
    Except.Alike (Plus E) (r.free tid p) (r'.free tid p) := by
  have hin := h.inRange hB
  have hfirst := (h.heap.block hB).first
  rw [Runtime.free_eq hin (getObjectPtrAtFree_first hfirst), Runtime.free_eq hin (getObjectPtrAtFree_first (hp.map.mem ▸ hfirst))]
  exact hp.release hw h hB tid

theorem Plus.realloc_inPlace (hp : Plus E r r') (hw : Within E B p) (h : MemoryInv strict r live B) (hB : B p = some ⟨size, .live⟩)
    {sz : Nat} (hsz : sz ≠ 0) (hle : sz ≤ size) (tid : Nat) :
    Except.Alike (Returns (Plus E)) (r.realloc tid p sz) (r'.realloc tid p sz) := by
  have hlow := (h.heap.placed hB).low
  have hsize : ObjectHeader.getSize r.memory.heap.map.mem p = size := (h.heap.block hB).size
  have h0 : p ≠ 0 := by omega
  have hge : size ≥ sz := hle
  rw [Runtime.realloc, Runtime.realloc, if_neg h0, if_neg hsz, if_neg h0, if_neg hsz]
  dsimp only
  rw [hp.map.mem, hsize, if_pos hge, if_pos hge, Except.bind_of_ok (Runtime.checkObject_spec h hB),
    Except.bind_of_ok (hp.checkObject h hB)]
  have hc := hp.checked hw h hB
  have hset := hc.map.setMem (ObjectHeader.setObjectSize (r.checked p size).memory.heap.map.mem p sz)
  dsimp only
  rw [hc.map.mem]
  exact .ok ⟨rfl, hc.setMap (hset.setSentinels p size sz)⟩

theorem Plus.realloc_move (hp : Plus E r r') (hw : Within E B p) (h : MemoryInv false r live B)
    (hB : B p = some ⟨size, .live⟩) {sz : Nat} (hgt : size < sz) (tid : Nat) :
    Except.Alike (Returns (Plus E)) (r.realloc tid p sz) (r'.realloc tid p sz) := by
  have hlow := (h.heap.placed hB).low
  have hsize : ObjectHeader.getSize r.memory.heap.map.mem p = size := (h.heap.block hB).size
  have h0 : p ≠ 0 := by omega
  have hsz : sz ≠ 0 := by omega
  have hlt : ¬ size ≥ sz := by omega
  rw [Runtime.realloc, Runtime.realloc, if_neg h0, if_neg hsz, if_neg h0, if_neg hsz]
  dsimp only
  rw [hp.map.mem, hsize, if_neg hlt, if_neg hlt]
  refine (hp.malloc hw h.heap tid sz).bind ?_
  rintro ⟨buf₀, r₁⟩ ⟨buf, r₁'⟩ hok ⟨heq, hp₁⟩
  dsimp only at heq hp₁ ⊢
  subst heq
  obtain ⟨size', h₁, hnew, hobj, -⟩ := Runtime.malloc_ok h hok
  rw [hp₁.map.mem]
  generalize hmin : (if ObjectHeader.getObjectSize r.memory.heap.map.mem p < sz then
    ObjectHeader.getObjectSize r.memory.heap.map.mem p else sz) = minSize
  have hroom : minSize ≤ ObjectHeader.getObjectSize r₁.memory.heap.map.mem buf := by
    rw [hobj, objectSize, if_neg (by omega)]
    split at hmin <;> omega
  have hne : buf ≠ p := fun heq => hnew size (heq ▸ hB)
  have hB₁ : Function.update B buf (some ⟨size', .live⟩) p = some ⟨size, .live⟩ := by
    rw [Function.update_of_ne hne.symm]
    exact hB
  have hw₁ : Within E (Function.update B buf (some ⟨size', .live⟩)) p := hw.keeps fun q size₂ hqp hq => by
    have hqb : q ≠ buf := fun heq => hnew size₂ (heq ▸ hq)
    refine ⟨hqp, ?_⟩
    rw [Function.update_of_ne hqb]
    exact hq
  refine ((hp₁.setMem _).free hw₁ (h₁.copyInto hroom p) hB₁ tid).bind ?_
  intro r₃ r₃' _ hp₃
  exact .ok ⟨rfl, hp₃⟩

/-- `realloc` on a map with more marks, none of them in the object that is given back. -/
theorem Plus.realloc (hp : Plus E r r') (hw : Within E B p) (h : MemoryInv false r live B) (hmem : p = 0 ∨ p ∈ live) (tid sz : Nat) :
    Except.Alike (Returns (Plus E)) (r.realloc tid p sz) (r'.realloc tid p sz) := by
  rcases hmem with rfl | hmem
  · rw [Runtime.realloc, Runtime.realloc, if_pos rfl, if_pos rfl]
    exact hp.malloc hw h.heap tid sz
  obtain ⟨size, hB⟩ := h.lists.live hmem
  rcases Nat.eq_zero_or_pos sz with rfl | hpos
  · have hlow := (h.heap.placed hB).low
    have h0 : p ≠ 0 := by omega
    obtain ⟨r₁, B₁, size₁, hfree, h₁, hB₁, -, hkept⟩ := Runtime.free_spec h hmem tid
    obtain ⟨r₁', hfree', hp₁⟩ := (hp.free hw h hB tid).of_ok hfree
    rw [Runtime.realloc, Runtime.realloc, if_neg h0, if_pos rfl, if_neg h0, if_pos rfl, Except.bind_of_ok hfree,
      Except.bind_of_ok hfree']
    have hw₁ : Within E B₁ p := hw.keeps fun q size₂ hqp hq => by
      refine ⟨hqp, hkept.live ?_⟩
      rw [Function.update_of_ne hqp]
      exact hq
    exact hp₁.malloc hw₁ h₁.heap tid 1
  · rcases Nat.lt_or_ge size sz with hgt | hle
    · exact hp.realloc_move hw h hB hgt tid
    · exact hp.realloc_inPlace hw h hB (by omega) hle tid

/-- An epoch ends well with the marks of `memalign`, too. -/
theorem Plus.epochEnd (hp : Plus E r r') (hE : Skipped E r.memory.heap.map) (h : MemoryInv strict r live B) (current : Nat)
    (alive : List AliveThread) : ∃ r₁ r₁', r.epochEnd current alive = .ok r₁ ∧ r'.epochEnd current alive = .ok r₁' ∧ Plus E r₁ r₁' := by
  have hno := fun item => hp.map.not_reported hE h.heap item
  have hwp := hp.map.wp.trans h.heap.wp
  obtain ⟨map', hmap, rfl⟩ := hp
  have hend := @Runtime.epochEnd_unreported (r.setMap map') h.heap.start h.heap.page hwp hno current alive
  refine ⟨_, _, Runtime.epochEnd_unreported h.heap.start h.heap.page h.heap.wp h.heap.not_reported current alive, hend, map', hmap, ?_⟩
  have hmem : map'.mem = r.memory.heap.map.mem := hmap.mem
  unfold Runtime.epochBegin XMemory.epochBegin XMemory.note Runtime.setMap
  dsimp only
  rw [hmem]

end Runtime

end DoubleTake
