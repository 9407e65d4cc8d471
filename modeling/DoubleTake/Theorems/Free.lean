import DoubleTake.Theorems.Malloc

/-! `free` and `realloc` keep the layout. An intact guard passes the check and is taken down; the block then waits
    in the quarantine, from which it goes to the list of its size class. -/

namespace DoubleTake

open SentinelMap XMemory

variable {strict : Bool} {B : Layout}

/-! ### The block of an object that is given back -/

section
variable {map : SentinelMap} {p size position : Nat}

/-- Cleaning the guard of an object leaves the sentinels of the block. -/
theorem BlockOk.clean (hok : BlockOk strict map p ⟨size, .live⟩) (hp : Placed position p size) :
    BlockOk strict (map.cleanGuard p size (ObjectHeader.getObjectSize map.mem p)) p ⟨size, .taken⟩ ∧
      Confined map (map.cleanGuard p size (ObjectHeader.getObjectSize map.mem p)) p size := by
  obtain ⟨h16, hmod, hmax⟩ := hp.size.bounds
  have hlow := hp.low
  have hal := hp.aligned
  have hle := (hok.live rfl).le
  dsimp only at hle
  simp only [USER_HEAP_BASE] at hlow
  have hset := fun {x} => @cleanGuard_isSet map x p size (ObjectHeader.getObjectSize map.mem p) (by omega) (by simp only [USER_HEAP_BASE]; omega)
  have hbounds := fun {w} (hw : GuardWord p size (ObjectHeader.getObjectSize map.mem p) w) =>
    hw.bounds (by omega) hle (by omega)
  refine ⟨⟨?_, ?_, ?_, ?_, fun w hw h₁ h₂ hs => ?_, nofun, nofun⟩, ⟨fun x _ => by rw [cleanGuard_mem], fun w hw hout => ?_⟩⟩
  · rw [cleanGuard_mem]
    exact hok.size
  · rw [cleanGuard_mem]
    exact hok.first
  · rw [cleanGuard_mem]
    exact hok.last
  · refine (hset ⟨by simp only [USER_HEAP_BASE]; omega, by omega⟩).mpr ⟨fun hg => ?_, hok.marked⟩
    have := hbounds hg
    omega
  · obtain ⟨hng, hs'⟩ := (hset hw).mp hs
    rcases hok.bits w hw h₁ h₂ hs' with h | h | ⟨-, h⟩
    · exact .inl h
    · exact .inr (.inl h)
    · exact absurd h hng
  · rw [Bool.eq_iff_iff, hset hw]
    refine ⟨fun h => h.2, fun h => ⟨fun hg => ?_, h⟩⟩
    have := hbounds hg
    omega

/-- Writing into a block that the application does not have. -/
theorem BlockOk.fill {u v : Use} {mem' : Mem} (hok : BlockOk strict map p ⟨size, u⟩) (hp : Placed position p size)
    (hu : u ≠ .live) (hv : v ≠ .live) (hm : ∀ a, a < p ∨ p + size ≤ a → mem' a = map.mem a)
    (hc : ∀ t, v = .quarantined t → CanaryIntact mem' p size) :
    BlockOk strict { map with mem := mem' } p ⟨size, v⟩ ∧ Confined map { map with mem := mem' } p size := by
  have hlow := hp.low
  simp only [USER_HEAP_BASE] at hlow
  refine ⟨⟨?_, ?_, ?_, hok.marked, fun w hw h₁ h₂ hset => ?_, fun hl => absurd hl hv, hc⟩,
    ⟨fun a ha => hm a (by omega), fun _ _ _ => rfl⟩⟩
  · exact (getSize_congr (fun a _ _ => (hm a (by omega)).symm) (by omega)).trans hok.size
  · exact (Mem.read_congr fun a _ _ => hm a (by omega)).trans hok.first
  · exact (Mem.read_congr fun a _ _ => hm a (.inr (by assumption))).trans hok.last
  · rcases hok.bits w hw h₁ h₂ hset with h | h | ⟨h, -⟩
    · exact .inl h
    · exact .inr (.inl h)
    · exact absurd h hu

/-- Writing into the object of the application. -/
theorem BlockOk.write {mem' : Mem} (hok : BlockOk strict map p ⟨size, .live⟩) (hp : Placed position p size)
    (hm : ∀ a, a < p ∨ p + ObjectHeader.getObjectSize map.mem p ≤ a → mem' a = map.mem a) :
    BlockOk strict { map with mem := mem' } p ⟨size, .live⟩ ∧ Confined map { map with mem := mem' } p size := by
  obtain ⟨h16, hmod, hmax⟩ := hp.size.bounds
  have hlow := hp.low
  have hal := hp.aligned
  simp only [USER_HEAP_BASE] at hlow
  obtain ⟨hpos, hle, hint, hmark⟩ := hok.live rfl
  have hobj : ObjectHeader.getObjectSize mem' p = ObjectHeader.getObjectSize map.mem p :=
    getObjectSize_congr (fun a _ _ => (hm a (by omega)).symm) (by omega)
  dsimp only at hle
  refine ⟨⟨?_, ?_, ?_, hok.marked, fun w hw h₁ h₂ hset => ?_, fun _ => ⟨?_, ?_, ?_, ?_⟩, nofun⟩,
    ⟨fun a ha => hm a (by omega), fun _ _ _ => rfl⟩⟩
  · exact (getSize_congr (fun a _ _ => (hm a (by omega)).symm) (by omega)).trans hok.size
  · exact (Mem.read_congr fun a _ _ => hm a (by omega)).trans hok.first
  · exact (Mem.read_congr fun a h₁ _ => hm a (.inr (by dsimp only at h₁; omega))).trans hok.last
  · dsimp only
    rw [hobj]
    exact hok.bits w hw h₁ h₂ hset
  · dsimp only
    rw [hobj]
    exact hpos
  · dsimp only
    rw [hobj]
    exact hle
  · dsimp only
    rw [hobj]
    exact hint.congr (by omega) hle (by dsimp only; omega) fun a h₁ _ => (hm a (.inr h₁)).symm
  · dsimp only
    rw [hobj]
    exact hmark

end

/-! ### Back to the heap -/

section
variable {h : XPHeap}

theorem XPHeap.lowerClass_class2Size (c : Nat) : XPHeap.lowerClass (Kingsley.class2Size c) c = c := by
  cases c with
  | zero => rfl
  | succ c => simp [XPHeap.lowerClass]

theorem HeapInv.getSize (hi : HeapInv strict h B) {p : Nat} {b : Block} (hB : B p = some b) : h.getSize p = .ok b.size := by
  have h16 := (hi.placed hB).size.bounds.1
  have hsize := (hi.block hB).size
  simp only [XPHeap.getSize, hsize]
  exact if_neg (by omega)

/-- A block goes to the list of its class. -/
theorem HeapInv.segFree (hi : HeapInv strict h B) {rings : Nat → List FreeObject} {live : List Nat}
    (hl : Lists h.bins rings live B) {p size : Nat} {u : Use} (hB : B p = some ⟨size, u⟩) (hu : u ≠ .live)
    (hd : Detached h.bins rings live p) (tid : Nat) :
    ∃ h', h.segFree tid p = .ok h' ∧ HeapInv strict h' (Function.update B p (some ⟨size, .free tid⟩)) ∧
      Lists h'.bins rings live (Function.update B p (some ⟨size, .free tid⟩)) ∧
      (∀ q, q ≠ p → Detached h.bins rings live q → Detached h'.bins rings live q) ∧
      (∀ w, h'.map.isSet w = h.map.isSet w) ∧ Confined h.map h'.map p size := by
  have hp := hi.placed hB
  obtain ⟨c, hc₁, hc₂, rfl⟩ := hp.size
  have h16 := hp.size.bounds
  have hmax : ¬ Kingsley.class2Size c > XPHeap.maxObjectSize := not_lt.mpr h16.2.2
  -- The link of the list takes the first word of the object.
  have hlink : ∀ a, a < p ∨ p + Kingsley.class2Size c ≤ a →
      h.map.mem.write p 8 ((h.bins tid c).headD 0) a = h.map.mem a := by
    rintro a (ha | ha)
    · exact Mem.write_of_lt ha
    · exact Mem.write_of_ge (by dsimp only at h16; omega)
  obtain ⟨hok, hconf⟩ := (hi.block hB).fill (v := .free tid) hp hu nofun hlink nofun
  have hi' := hi.update hB { h with
    map := h.map.store p ((h.bins tid c).headD 0)
    bins := Function.update h.bins tid (Function.update (h.bins tid) c (p :: h.bins tid c)) } rfl rfl hi.wp hconf hok
  have hl' := (hl.assign hd (some ⟨Kingsley.class2Size c, .free tid⟩)).pushBin hd (Function.update_self ..)
  refine ⟨_, ?_, hi', hl', fun q hq hdq => ⟨fun t d hmem => ?_, hdq.rings, hdq.live⟩, fun w => rfl, hconf⟩
  · rw [XPHeap.segFree, hi.getSize hB]
    change (if Kingsley.class2Size c > XPHeap.maxObjectSize then _ else _) = _
    rw [if_neg hmax, Kingsley.size2Class_class2Size, XPHeap.lowerClass_class2Size]
  · dsimp only at hmem
    rw [update_bins] at hmem
    split at hmem
    · rcases List.mem_cons.mp hmem with h | h
      · exact hq h
      · exact hdq.bins tid c h
    · exact hdq.bins t d hmem

end

/-! ### Into the quarantine -/

/-- The rings of the threads. -/
def Runtime.rings (r : Runtime) : Nat → List FreeObject := fun t => (r.qlist t).ring

/-- What holds between the calls: the layout is that of the heap and of all lists, and no check has found anything. -/
structure MemoryInv (strict : Bool) (r : Runtime) (live : List Nat) (B : Layout) : Prop where
  heap : HeapInv strict r.memory.heap B
  lists : Lists r.memory.heap.bins r.rings live B
  queues : ∀ t, (r.qlist t).Wf
  checks : ∀ c ∈ r.memory.checks, c.2 = false

/-- The list of the application may be written down otherwise, or lose some of its pointers. -/
theorem MemoryInv.of_subset {r : Runtime} {live live' : List Nat} (h : MemoryInv strict r live B) (hnd : live'.Nodup)
    (hsub : ∀ p ∈ live', p ∈ live) : MemoryInv strict r live' B :=
  ⟨h.heap, ⟨h.lists.bins, h.lists.binsNodup, h.lists.rings, h.lists.ringsNodup, fun hp => h.lists.live (hsub _ hp), hnd⟩, h.queues,
    h.checks⟩

/-- The application keeps its objects. -/
def Layout.Keeps (B B' : Layout) : Prop := ∀ ⦃q size⦄, B q = some ⟨size, .live⟩ → B' q = some ⟨size, .live⟩

theorem Layout.Keeps.update {B₀ : Layout} {q size : Nat} {u : Use} (h : B₀.Keeps B) (hB : B q = some ⟨size, u⟩) (hu : u ≠ .live)
    (b : Option Block) : B₀.Keeps (Function.update B q b) := by
  intro p size' hp
  have hne : p ≠ q := by
    rintro rfl
    rw [h hp] at hB
    cases hB
    exact hu rfl
  rw [Function.update_of_ne hne]
  exact h hp

/-- The blocks stay. -/
def Layout.Grows (B B' : Layout) : Prop := ∀ q, (B q).isSome = true → (B' q).isSome = true

theorem Layout.Grows.refl (B : Layout) : B.Grows B := fun _ hq => hq

theorem Layout.Grows.trans {B' B'' : Layout} (h : B.Grows B') (h' : B'.Grows B'') : B.Grows B'' := fun q hq => h' q (h q hq)

theorem Layout.grows_update (B : Layout) (p : Nat) (b : Block) : B.Grows (Function.update B p (some b)) := by
  intro q hq
  by_cases hqp : q = p
  · subst hqp
    rw [Function.update_self]
    rfl
  · rwa [Function.update_of_ne hqp]

/-- The address is not one of the heap. -/
def OutsideHeap (a : Nat) : Prop := a < USER_HEAP_BASE ∨ USER_HEAP_BASE + USER_HEAP_SIZE ≤ a

/-- The blocks of the application other than `p`, and what lies outside of the heap, are not touched. -/
structure Spares (B : Layout) (p : Nat) (mem mem' : Mem) : Prop where
  bytes : ∀ {q size}, B q = some ⟨size, .live⟩ → q ≠ p → Mem.Agree mem mem' (q - 16) (q + size + 16)
  outside : ∀ a, OutsideHeap a → mem' a = mem a

theorem Spares.trans {mem mem' mem'' : Mem} {p : Nat} (h : Spares B p mem mem') (h' : Spares B p mem' mem'') : Spares B p mem mem'' :=
  ⟨fun hq hne => (h.bytes hq hne).trans (h'.bytes hq hne), fun a ha => (h'.outside a ha).trans (h.outside a ha)⟩

theorem Spares.update {mem mem' : Mem} {p : Nat} {b : Option Block} : Spares (Function.update B p b) p mem mem' ↔ Spares B p mem mem' := by
  constructor <;> refine fun h => ⟨fun {q size} hq hne => h.bytes ?_ hne, h.outside⟩
  · rwa [Function.update_of_ne hne]
  · rwa [Function.update_of_ne hne] at hq

theorem Spares.of_new {p q : Nat} {m m' : Mem} (h : Spares B q m m') (hnew : ∀ size, B q ≠ some ⟨size, .live⟩) : Spares B p m m' := by
  refine ⟨fun {r size} hr _ => h.bytes hr ?_, h.outside⟩
  rintro rfl
  exact hnew size hr

theorem Spares.of_keeps {B' : Layout} {p : Nat} {m m' : Mem} (h : Spares B' p m m')
    (hk : ∀ q size, q ≠ p → B q = some ⟨size, .live⟩ → B' q = some ⟨size, .live⟩) : Spares B p m m' :=
  ⟨fun {q size} hq hne => h.bytes (hk q size hne hq) hne, h.outside⟩

theorem Confined.spares {h : XPHeap} {map map' : SentinelMap} {p size : Nat} {u : Use} (hc : Confined map map' p size)
    (hi : HeapInv strict h B) (hB : B p = some ⟨size, u⟩) : Spares B p map.mem map'.mem := by
  have hlow := (hi.placed hB).low
  have hhigh := (hi.placed hB).high
  have htotal := hi.total
  dsimp only at hhigh
  refine ⟨fun {q size'} hq hne a h₁ h₂ => ?_, fun a ha => hc.mem a ?_⟩
  · have hlow' := (hi.placed hq).low
    have hapart := hi.apart hq hB hne
    dsimp only at hapart
    exact (hc.mem a (by omega)).symm
  · simp only [OutsideHeap] at ha
    omega

/-- The blocks stay, and those of the application are not touched. -/
structure Preserves (map₀ map : SentinelMap) (B₀ B : Layout) : Prop where
  live : B₀.Keeps B
  blocks : B₀.Grows B
  bytes : ∀ {q size}, B₀ q = some ⟨size, .live⟩ → Mem.Agree map₀.mem map.mem (q - 16) (q + size + 16)
  outside : ∀ a, OutsideHeap a → map.mem a = map₀.mem a

theorem Preserves.refl (map : SentinelMap) (B : Layout) : Preserves map map B B :=
  ⟨fun _ _ hq => hq, .refl B, fun _ => Mem.Agree.refl _ _ _, fun _ _ => rfl⟩

theorem Preserves.of_mem {map₀ map₀' map : SentinelMap} {B₀ : Layout} (h : Preserves map₀ map B₀ B) (hm : map₀'.mem = map₀.mem) :
    Preserves map₀' map B₀ B :=
  ⟨h.live, h.blocks, hm ▸ h.bytes, hm ▸ h.outside⟩

/-- A block that the application does not have is changed. -/
theorem Preserves.step {map₀ map' : SentinelMap} {B₀ : Layout} {h : XPHeap} {q size : Nat} {u : Use} (hk : Preserves map₀ h.map B₀ B)
    (hi : HeapInv strict h B) (hB : B q = some ⟨size, u⟩) (hu : u ≠ .live) (hc : Confined h.map map' q size) (v : Use) :
    Preserves map₀ map' B₀ (Function.update B q (some ⟨size, v⟩)) := by
  have hsp := hc.spares hi hB
  refine ⟨hk.live.update hB hu _, hk.blocks.trans (Layout.grows_update _ _ _), fun {p size'} hp => (hk.bytes hp).trans ?_,
    fun a ha => (hsp.outside a ha).trans (hk.outside a ha)⟩
  have hlive := hk.live hp
  refine hsp.bytes hlive ?_
  rintro rfl
  rw [hlive] at hB
  cases hB
  exact hu rfl

theorem Preserves.spares {map₀ map : SentinelMap} {B' : Layout} {p size : Nat}
    (h : Preserves map₀ map (Function.update B p (some ⟨size, .taken⟩)) B') : Spares B p map₀.mem map.mem :=
  Spares.update.mp ⟨fun hq _ => h.bytes hq, h.outside⟩

/-- What holds while objects leave the ring of a thread and the object `p` waits to enter it. -/
structure Leaving (strict : Bool) (x₀ : XMemory) (B₀ : Layout) (rings : Nat → List FreeObject) (live : List Nat)
    (tid p size : Nat) (os : List FreeObject) (x : XMemory) (B : Layout) : Prop where
  heap : HeapInv strict x.heap B
  lists : Lists x.heap.bins (Function.update rings tid os) live B
  detached : Detached x.heap.bins (Function.update rings tid os) live p
  block : B p = some ⟨size, .quarantined tid⟩
  checks : ∀ c ∈ x.checks, c.2 = false
  bits : ∀ w, x.heap.map.isSet w = x₀.heap.map.isSet w
  size : ObjectHeader.getSize x.heap.map.mem p = size
  keeps : Preserves x₀.heap.map x.heap.map B₀ B

/-- The object at the front of the ring has its canary, and goes to the heap. -/
theorem Leaving.step {x₀ x : XMemory} {B₀ : Layout} {rings : Nat → List FreeObject} {live : List Nat} {tid p size : Nat}
    {o : FreeObject} {os : List FreeObject} (h : Leaving strict x₀ B₀ rings live tid p size (o :: os) x B) :
    ∃ x₁ x₂ B', (quarantineHeap tid).hasUsageAfterFree x o = (false, x₁) ∧
      (quarantineHeap tid).realfree x₁ o.ptr = .ok x₂ ∧ Leaving strict x₀ B₀ rings live tid p size os x₂ B' := by
  have hBo : B o.ptr = some ⟨o.size, .quarantined tid⟩ := h.lists.rings (t := tid) (by simp)
  have hpo : p ≠ o.ptr := fun hp => h.detached.rings tid o (by simp) hp.symm
  obtain ⟨hl, hd⟩ := h.lists.popRing
  have hdp : Detached x.heap.bins (Function.update rings tid os) live p := by
    refine ⟨h.detached.bins, fun t o' ho' => h.detached.rings t o' ?_, h.detached.live⟩
    by_cases ht : t = tid
    · subst ht
      rw [Function.update_self] at ho' ⊢
      exact List.mem_cons_of_mem _ ho'
    · rwa [Function.update_of_ne ht] at ho' ⊢
  obtain ⟨h', hfree, hi', hl', hdet, hbits, hconf⟩ := h.heap.segFree hl hBo nofun hd tid
  have huaf : XMemory.hasUsageAfterFree x.heap.map o = (false, x.heap.map) :=
    hasUsageAfterFree_intact ((h.heap.block hBo).canary tid rfl)
  have hB' : Function.update B o.ptr (some ⟨o.size, .free tid⟩) p = some ⟨size, .quarantined tid⟩ := by
    rw [Function.update_of_ne hpo]
    exact h.block
  refine ⟨x.note .usageAfterFree false x.heap.map, { x with heap := h', checks := (.usageAfterFree, false) :: x.checks },
    _, ?_, ?_, ⟨hi', hl', hdet p hpo hdp, hB', ?_, fun w => (hbits w).trans (h.bits w), (hi'.block hB').size,
      h.keeps.step h.heap hBo nofun hconf _⟩⟩
  · change ((XMemory.hasUsageAfterFree x.heap.map o).1,
      x.note .usageAfterFree (XMemory.hasUsageAfterFree x.heap.map o).1 (XMemory.hasUsageAfterFree x.heap.map o).2) = _
    rw [huaf]
  · exact Except.bind_of_ok hfree
  · intro c hc
    rcases List.mem_cons.mp hc with rfl | hc
    · rfl
    · exact h.checks c hc

/-- The rings after a call of the thread `tid`. -/
theorem Runtime.rings_update (r : Runtime) (tid : Nat) (q : Quarantine) (x : XMemory) :
    ({ r with memory := x, qlist := Function.update r.qlist tid q } : Runtime).rings =
      Function.update r.rings tid q.ring := by
  funext t
  by_cases ht : t = tid
  · subst ht
    simp [Runtime.rings]
  · simp [Runtime.rings, ht]

/-- `pheapFree` on a block that its object has been taken out of. -/
theorem Runtime.pheapFree_spec {r : Runtime} {live : List Nat} (h : MemoryInv strict r live B) {p size : Nat}
    (hB : B p = some ⟨size, .taken⟩) (tid : Nat) :
    ∃ r' B' u, r.pheapFree tid p = .ok r' ∧ MemoryInv strict r' live B' ∧ B' p = some ⟨size, u⟩ ∧ u ≠ .live ∧
      (∀ w, r'.memory.heap.map.isSet w = r.memory.heap.map.isSet w) ∧
      Preserves r.memory.heap.map r'.memory.heap.map B B' := by
  have hd := h.lists.detached (.inr ⟨size, hB⟩)
  have hp := h.heap.placed hB
  have hmod := hp.size.bounds
  have hself := Preserves.refl r.memory.heap.map B
  rw [Runtime.pheapFree, h.heap.getSize hB]
  by_cases hlarge : size ≥ QUARANTINE_TOTAL_SIZE
  -- Too large for the quarantine: the block goes to the heap at once.
  · obtain ⟨h', hfree, hi', hl', -, hbits, hconf⟩ := h.heap.segFree h.lists hB nofun hd tid
    refine ⟨{ r with memory := { r.memory with heap := h' } }, _, _, ?_, ⟨hi', hl', h.queues, h.checks⟩,
      Function.update_self .., nofun, hbits, hself.step h.heap hB nofun hconf _⟩
    have hadd : Quarantine.addFreeObject (quarantineHeap tid) (r.qlist tid) r.memory p size =
        .ok (false, r.qlist tid, r.memory) := if_pos hlarge
    rw [Except.bind_of_ok rfl, Except.bind_of_ok hadd]
    dsimp only
    rw [if_neg (by simp), Except.bind_of_ok hfree]
  · obtain ⟨hok, hconf⟩ := (h.heap.block hB).fill (v := .quarantined tid) hp nofun nofun
      (fun a ha => markFreeObject_outside r.memory.heap.map.mem ha) fun _ _ => markFreeObject_intact _ _ _
    have hi' := h.heap.update hB
      { r.memory.heap with map := { r.memory.heap.map with mem := markFreeObject r.memory.heap.map.mem p size } }
      rfl rfl h.heap.wp hconf hok
    have hl' := h.lists.assign hd (some ⟨size, .quarantined tid⟩)
    have hB' : Function.update B p (some ⟨size, .quarantined tid⟩) p = some ⟨size, .quarantined tid⟩ :=
      Function.update_self ..
    have hstart : Leaving strict r.memory B r.rings live tid p size (r.qlist tid).ring
        ((quarantineHeap tid).markFreeObject r.memory p size) (Function.update B p (some ⟨size, .quarantined tid⟩)) := by
      have hring : Function.update r.rings tid (r.qlist tid).ring = r.rings := Function.update_eq_self tid r.rings
      refine ⟨hi', ?_, ?_, hB', h.checks, fun w => rfl, (hi'.block hB').size, hself.step h.heap hB nofun hconf _⟩
      · rw [hring]
        exact hl'
      · rw [hring]
        exact hd
    obtain ⟨q', x', kept, hadd, hwf, -, hring, B', hleft⟩ := Quarantine.addFreeObject_rule (q := r.qlist tid)
      (P := fun os x => ∃ B', Leaving strict r.memory B r.rings live tid p size os x B')
      (fun o os x ⟨_, hl⟩ => by
        obtain ⟨x₁, x₂, B', h₁, h₂, h₃⟩ := hl.step
        exact ⟨x₁, x₂, h₁, h₂, B', h₃⟩)
      (h.queues tid) (not_le.mp hlarge) (show size % 8 = 0 by dsimp only at hmod; omega) ⟨_, hstart⟩
    refine ⟨{ r with memory := x', qlist := Function.update r.qlist tid q' }, B', _, ?_,
      ⟨hleft.heap, ?_, fun t => ?_, hleft.checks⟩, hleft.block, nofun, hleft.bits, hleft.keeps⟩
    · rw [Except.bind_of_ok rfl, Except.bind_of_ok hadd]
      exact if_pos rfl
    · rw [Runtime.rings_update, hring]
      have := hleft.lists.pushRing hleft.detached hleft.block
      rwa [Function.update_self, Function.update_idem] at this
    · by_cases ht : t = tid
      · subst ht
        simpa using hwf
      · simpa [ht] using h.queues t

/-! ### The calls -/

/-- The process after the check of a live object: its guard is taken down. -/
def Runtime.checked (r : Runtime) (p size : Nat) : Runtime :=
  let map := r.memory.heap.map.cleanGuard p size (ObjectHeader.getObjectSize r.memory.heap.map.mem p)
  { r with memory := r.memory.note .object false map }

theorem Runtime.checked_heap (r : Runtime) (p size : Nat) : (r.checked p size).memory.heap =
    { r.memory.heap with map := r.memory.heap.map.cleanGuard p size (ObjectHeader.getObjectSize r.memory.heap.map.mem p) } := by
  unfold Runtime.checked XMemory.note
  rfl

theorem Runtime.checked_map (r : Runtime) (p size : Nat) : (r.checked p size).memory.heap.map =
    r.memory.heap.map.cleanGuard p size (ObjectHeader.getObjectSize r.memory.heap.map.mem p) := by
  rw [Runtime.checked_heap]

theorem Runtime.checked_mem (r : Runtime) (p size : Nat) : (r.checked p size).memory.heap.map.mem = r.memory.heap.map.mem := by
  rw [Runtime.checked_map]
  exact cleanGuard_mem

theorem Runtime.checked_rings (r : Runtime) (p size : Nat) : (r.checked p size).rings = r.rings := by
  unfold Runtime.checked Runtime.rings
  rfl

/-- The check of an intact guard passes. -/
theorem checkOverflowAndCleanSentinels_intact {map : SentinelMap} {p size : Nat} (hsize : ObjectHeader.getSize map.mem p = size)
    (hle : ObjectHeader.getObjectSize map.mem p ≤ size) (hlt : size < 2 ^ 64)
    (hint : GuardIntact map.mem p size (ObjectHeader.getObjectSize map.mem p)) :
    checkOverflowAndCleanSentinels map p = .ok (false, map.cleanGuard p size (ObjectHeader.getObjectSize map.mem p)) := by
  simp only [checkOverflowAndCleanSentinels, hsize]
  rw [if_neg (by omega), checkObjectOverflow_clean hle hlt hint]

/-- The check of a live object passes. -/
theorem Runtime.checkObject_spec {r : Runtime} {live : List Nat} (h : MemoryInv strict r live B) {p size : Nat}
    (hB : B p = some ⟨size, .live⟩) :
    r.checkObject p = .ok (false, r.checked p size) := by
  have hok := h.heap.block hB
  have hsize : ObjectHeader.getSize r.memory.heap.map.mem p = size := hok.size
  have hmax := (h.heap.placed hB).size.bounds.2.2
  dsimp only at hmax
  rw [Runtime.checkObject, checkOverflowAndCleanSentinels_intact hsize (hok.live rfl).le (by omega) (hok.live rfl).intact]
  rfl

/-- After the check the block is the allocator's, and the application has lost the pointer. -/
theorem MemoryInv.checked {r : Runtime} {live : List Nat} (h : MemoryInv strict r live B) {p size : Nat} (hp : p ∈ live)
    (hB : B p = some ⟨size, .live⟩) :
    MemoryInv strict (r.checked p size) (live.erase p) (Function.update B p (some ⟨size, .taken⟩)) := by
  obtain ⟨hok, hconf⟩ := (h.heap.block hB).clean (h.heap.placed hB)
  obtain ⟨hl, hd⟩ := h.lists.eraseLive hp
  have hwp : (r.memory.heap.map.cleanGuard p size (ObjectHeader.getObjectSize r.memory.heap.map.mem p)).wp = [] := by
    rw [cleanGuard_wp]
    exact h.heap.wp
  refine ⟨?_, ?_, h.queues, fun c hc => ?_⟩
  · rw [Runtime.checked_heap]
    generalize r.memory.heap.map.cleanGuard p size (ObjectHeader.getObjectSize r.memory.heap.map.mem p) = map at hok hconf hwp
    exact h.heap.update hB { r.memory.heap with map := map } rfl rfl hwp hconf hok
  · rw [Runtime.checked_heap, Runtime.checked_rings]
    exact hl.assign hd _
  · rcases List.mem_cons.mp hc with rfl | hc
    · rfl
    · exact h.checks c hc

theorem MemoryInv.inRange {r : Runtime} {live : List Nat} (h : MemoryInv strict r live B) {p : Nat} {b : Block}
    (hB : B p = some b) : XMemory.inRange p = true := by
  have hlow := (h.heap.placed hB).low
  have hhigh := (h.heap.placed hB).high
  have htotal := h.heap.total
  simp only [XMemory.inRange, Bool.and_eq_true, decide_eq_true_eq]
  omega

theorem getObjectPtrAtFree_first {map : SentinelMap} {p : Nat} (hfirst : map.mem.read (p - 8) 8 = SENTINEL_WORD) :
    getObjectPtrAtFree map p = (p, map) := by
  have hword : map.word (p - WORD_SIZE) = SENTINEL_WORD := hfirst
  have hne : SENTINEL_WORD ≠ MEMALIGN_SENTINEL_WORD := by decide
  simp only [getObjectPtrAtFree, hword]
  rw [if_neg hne]

theorem Runtime.setMap_self (r : Runtime) : r.setMap r.memory.heap.map = r := rfl

/-- The words of a block, with its header and sentinels. -/
def InBlock (p size w : Nat) : Prop := p ≤ w + 16 ∧ w < p + size + 16

theorem Confined.inBlock {map map' : SentinelMap} {p size w : Nat} (h : Confined map map' p size) (hw : HeapWord w)
    (hout : ¬ InBlock p size w) : map'.isSet w = map.isSet w := by
  simp only [InBlock, not_and_or, not_le, not_lt] at hout
  exact h.bits w hw hout

/-- `free` of a live object. -/
theorem Runtime.free_spec {r : Runtime} {live : List Nat} (h : MemoryInv strict r live B) {p : Nat} (hp : p ∈ live)
    (tid : Nat) :
    ∃ r' B' size, r.free tid p = .ok r' ∧ MemoryInv strict r' (live.erase p) B' ∧ B p = some ⟨size, .live⟩ ∧
      (∀ w, HeapWord w → ¬ InBlock p size w → r'.memory.heap.map.isSet w = r.memory.heap.map.isSet w) ∧
      Preserves r.memory.heap.map r'.memory.heap.map (Function.update B p (some ⟨size, .taken⟩)) B' := by
  obtain ⟨size, hB⟩ := h.lists.live hp
  have hconf : Confined r.memory.heap.map (r.checked p size).memory.heap.map p size := by
    rw [Runtime.checked_heap]
    exact ((h.heap.block hB).clean (h.heap.placed hB)).2
  have hchecked := h.checked hp hB
  obtain ⟨r₁, B₁, u, hfree, h₁, hB₁, hu, hbits, hkept⟩ := Runtime.pheapFree_spec hchecked (Function.update_self ..) tid
  have hlow := (h₁.heap.placed hB₁).low
  simp only [USER_HEAP_BASE] at hlow
  have hok := (h₁.heap.block hB₁).setObjectSize 0 (h₁.heap.placed hB₁) hu
  have hconf₁ : Confined r₁.memory.heap.map (r₁.setMem (ObjectHeader.setObjectFree r₁.memory.heap.map.mem p)).memory.heap.map p size :=
    ⟨fun a ha => setObjectSize_outside (by omega) (by omega), fun _ _ _ => rfl⟩
  have hi' := h₁.heap.update hB₁ (r₁.setMem (ObjectHeader.setObjectFree r₁.memory.heap.map.mem p)).memory.heap rfl rfl
    h₁.heap.wp hconf₁ hok
  have hkept₁ := hkept.step h₁.heap hB₁ hu hconf₁ u
  have hsame : Function.update B₁ p (some ⟨size, u⟩) = B₁ := by
    rw [← hB₁]
    exact Function.update_eq_self p B₁
  rw [hsame] at hi' hkept₁
  refine ⟨r₁.setMem (ObjectHeader.setObjectFree r₁.memory.heap.map.mem p), B₁, size, ?_,
    ⟨hi', h₁.lists, h₁.queues, h₁.checks⟩, hB, fun w hw hout => (hbits w).trans (hconf.inBlock hw hout),
    hkept₁.of_mem (r.checked_mem p size).symm⟩
  rw [Runtime.free, if_neg (by simp [h.inRange hB]), getObjectPtrAtFree_first (h.heap.block hB).first]
  dsimp only
  rw [Runtime.setMap_self, Except.bind_of_ok (Runtime.checkObject_spec h hB)]
  dsimp only
  rw [if_neg (by simp), Except.bind_of_ok hfree]

end DoubleTake
