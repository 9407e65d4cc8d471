import DoubleTake.Theorems.Sentinels

/-! The blocks that the application heap has handed out, and what holds of each of them. A layout says where the
    blocks are, how large they are and who has them; the invariant says that they lie apart, that header, sentinels
    and guard of each are intact, and that no bit of the map is set elsewhere. -/

namespace DoubleTake

open SentinelMap XMemory

/-- Who has a block. -/
inductive Use where
  /-- The application. -/
  | live
  /-- The quarantine of a thread. -/
  | quarantined (tid : Nat)
  /-- A size-class list of a thread. -/
  | free (tid : Nat)
  /-- A call of the allocator, which is about to pass it on. -/
  | taken
  deriving DecidableEq

structure Block where
  size : Nat
  use : Use

/-- The blocks by the address of their object. -/
abbrev Layout := Nat → Option Block

/-- The sizes that blocks have: those of the size classes from 16 bytes on. -/
def BlockSize (size : Nat) : Prop := ∃ c, 1 ≤ c ∧ c ≤ 28 ∧ size = Kingsley.class2Size c

theorem BlockSize.bounds {size : Nat} (h : BlockSize size) : 16 ≤ size ∧ size % 16 = 0 ∧ size ≤ 2 ^ 31 := by
  obtain ⟨c, h₁, h₂, rfl⟩ := h
  obtain ⟨d, rfl⟩ : ∃ d, c = d + 1 := ⟨c - 1, by omega⟩
  have hpow : Kingsley.class2Size (d + 1) = 16 * 2 ^ d := by
    rw [Kingsley.class2Size, show d + 1 + 3 = 4 + d by omega, pow_add]
    rfl
  have hpos : 1 ≤ 2 ^ d := Nat.one_le_two_pow
  have hle : 2 ^ d ≤ 2 ^ 27 := Nat.pow_le_pow_right (by omega) (by omega)
  rw [hpow]
  omega

/-! ### One block -/

/-- The object in a block has its guard. The guard words are marked; for an object that fills its block this is
    asked only when `strict`. -/
structure Guarded (strict : Bool) (map : SentinelMap) (p size : Nat) : Prop where
  pos : 1 ≤ ObjectHeader.getObjectSize map.mem p
  le : ObjectHeader.getObjectSize map.mem p ≤ size
  intact : GuardIntact map.mem p size (ObjectHeader.getObjectSize map.mem p)
  marked : strict = true ∨ ObjectHeader.getObjectSize map.mem p < size →
    ∀ w, GuardWord p size (ObjectHeader.getObjectSize map.mem p) w → map.isSet w = true

/-- Header and sentinels of a block are intact, and only its sentinels and its guard are marked. -/
structure BlockOk (strict : Bool) (map : SentinelMap) (p : Nat) (b : Block) : Prop where
  size : ObjectHeader.getSize map.mem p = b.size
  first : map.mem.read (p - 8) 8 = SENTINEL_WORD
  last : map.mem.read (p + b.size) 8 = SENTINEL_WORD
  marked : map.isSet (p - 8) = true
  bits : ∀ w, HeapWord w → p ≤ w + 16 → w < p + b.size + 16 → map.isSet w = true →
    w = p - 8 ∨ w = p + b.size ∨
      b.use = .live ∧ GuardWord p b.size (ObjectHeader.getObjectSize map.mem p) w
  live : b.use = .live → Guarded strict map p b.size
  canary : ∀ t, b.use = .quarantined t → CanaryIntact map.mem p b.size

/-- Where a block may lie. -/
structure Placed (position p size : Nat) : Prop where
  aligned : p % 16 = 0
  low : USER_HEAP_BASE + 32 ≤ p
  high : p + size + 16 ≤ position
  size : BlockSize size

section
variable {strict : Bool} {map map' : SentinelMap} {p : Nat} {b : Block} {position : Nat}

theorem getSize_congr {m m' : Mem} (h : Mem.Agree m m' (p - 16) (p - 12)) (hp : 16 ≤ p) :
    ObjectHeader.getSize m' p = ObjectHeader.getSize m p :=
  Mem.read_congr (h.symm.mono (by omega) (by omega))

theorem getObjectSize_congr {m m' : Mem} (h : Mem.Agree m m' (p - 12) (p - 8)) (hp : 16 ≤ p) :
    ObjectHeader.getObjectSize m' p = ObjectHeader.getObjectSize m p :=
  Mem.read_congr (h.symm.mono (by omega) (by omega))

/-- What holds of a block depends on its own bytes and bits only. -/
theorem BlockOk.congr (h : BlockOk strict map p b) (hp : Placed position p b.size)
    (hm : Mem.Agree map.mem map'.mem (p - 16) (p + b.size + 16))
    (hbits : ∀ w, HeapWord w → p ≤ w + 16 → w < p + b.size + 16 → map'.isSet w = map.isSet w) :
    BlockOk strict map' p b := by
  obtain ⟨h16, h16', -⟩ := hp.size.bounds
  have hlow := hp.low
  have hal := hp.aligned
  simp only [USER_HEAP_BASE] at hlow
  have hobj : ObjectHeader.getObjectSize map'.mem p = ObjectHeader.getObjectSize map.mem p :=
    getObjectSize_congr (hm.mono (by omega) (by omega)) (by omega)
  refine ⟨?_, ?_, ?_, ?_, fun w hw h₁ h₂ hset => ?_, fun hl => ?_, fun t ht => ?_⟩
  · rw [getSize_congr (hm.mono (by omega) (by omega)) (by omega)]
    exact h.size
  · rw [← Mem.read_congr (hm.mono (by omega) (by omega))]
    exact h.first
  · rw [← Mem.read_congr (hm.mono (by omega) (by omega))]
    exact h.last
  · rw [hbits (p - 8) ⟨by simp only [USER_HEAP_BASE]; omega, by omega⟩ (by omega) (by omega)]
    exact h.marked
  · rw [hobj]
    exact h.bits w hw h₁ h₂ (hbits w hw h₁ h₂ ▸ hset)
  · obtain ⟨hpos, hle, hint, hmark⟩ := h.live hl
    refine ⟨by rw [hobj]; exact hpos, by rw [hobj]; exact hle, ?_, ?_⟩
    · rw [hobj]
      exact hint.congr (by omega) hle (by omega) (hm.mono (by omega) (by omega))
    · rw [hobj]
      intro hex w hw
      obtain ⟨hw₁, hw₂, hw₃⟩ := hw.bounds (by omega) hle (by omega)
      rw [hbits w ⟨by simp only [USER_HEAP_BASE]; omega, hw₃⟩ (by omega) (by omega)]
      exact hmark hex w hw
  · exact (h.canary t ht).congr (hm.mono (by omega) (by omega))

/-- A block passes from hand to hand when it is not the application that takes it or a quarantine. -/
theorem BlockOk.reuse {size : Nat} {u v : Use} (h : BlockOk strict map p ⟨size, u⟩) (hu : u ≠ .live) (hv : v ≠ .live)
    (hc : ∀ t, v = .quarantined t → CanaryIntact map.mem p size) : BlockOk strict map p ⟨size, v⟩ where
  size := h.size
  first := h.first
  last := h.last
  marked := h.marked
  bits w hw h₁ h₂ hset := by
    rcases h.bits w hw h₁ h₂ hset with h | h | ⟨h, -⟩
    · exact .inl h
    · exact .inr (.inl h)
    · exact absurd h hu
  live hl := absurd hl hv
  canary := hc

end

/-! ### The heap -/

/-- The blocks of a layout are those of the heap. -/
structure HeapInv (strict : Bool) (h : XPHeap) (B : Layout) : Prop where
  start : USER_HEAP_BASE ≤ h.xheap.position
  page : h.xheap.position % 4096 = 0
  total : h.xheap.position + h.xheap.remaining = USER_HEAP_BASE + USER_HEAP_SIZE
  wp : h.map.wp = []
  placed : ∀ {p b}, B p = some b → Placed h.xheap.position p b.size
  apart : ∀ {p b q c}, B p = some b → B q = some c → p ≠ q → p + b.size + 32 ≤ q ∨ q + c.size + 32 ≤ p
  zone : ∀ {t a}, (h.zones t).arenaSpace = some a →
    a % 16 = 0 ∧ USER_HEAP_BASE + 16 ≤ a ∧ a + (h.zones t).sizeRemaining ≤ h.xheap.position
  zoneBlock : ∀ {t a p b}, (h.zones t).arenaSpace = some a → B p = some b →
    p + b.size + 16 ≤ a ∨ a + (h.zones t).sizeRemaining + 16 ≤ p
  zoneZone : ∀ {t a u c}, (h.zones t).arenaSpace = some a → (h.zones u).arenaSpace = some c → t ≠ u →
    a + (h.zones t).sizeRemaining ≤ c ∨ c + (h.zones u).sizeRemaining ≤ a
  block : ∀ {p b}, B p = some b → BlockOk strict h.map p b
  covered : ∀ {w}, HeapWord w → h.map.isSet w = true → ∃ p b, B p = some b ∧ p ≤ w + 16 ∧ w < p + b.size + 16

/-- A change of the map that stays inside the raw bytes of one block. -/
structure Confined (map map' : SentinelMap) (p size : Nat) : Prop where
  mem : ∀ a, a + 16 < p ∨ p + size + 16 ≤ a → map'.mem a = map.mem a
  bits : ∀ w, HeapWord w → (w + 16 < p ∨ p + size + 16 ≤ w) → map'.isSet w = map.isSet w

section
variable {strict : Bool} {h : XPHeap} {B : Layout} {p : Nat} {b : Block} {map' : SentinelMap}

theorem Confined.refl (map : SentinelMap) (p size : Nat) : Confined map map p size := ⟨fun _ _ => rfl, fun _ _ _ => rfl⟩

theorem Confined.trans {map map' map'' : SentinelMap} {p size : Nat} (h₁ : Confined map map' p size)
    (h₂ : Confined map' map'' p size) : Confined map map'' p size :=
  ⟨fun a ha => (h₂.mem a ha).trans (h₁.mem a ha), fun w hw hout => (h₂.bits w hw hout).trans (h₁.bits w hw hout)⟩

/-- A confined change keeps every other block as it is. -/
theorem HeapInv.others (hi : HeapInv strict h B) (hB : B p = some b) (hc : Confined h.map map' p b.size) {q : Nat} {c : Block}
    (hq : B q = some c) (hne : q ≠ p) : BlockOk strict map' q c := by
  have hp := hi.placed hB
  have hqp := hi.placed hq
  have hlow := hp.low
  have hlow' := hqp.low
  simp only [USER_HEAP_BASE] at hlow hlow'
  have hap := hi.apart hq hB hne
  refine (hi.block hq).congr hqp (fun a h₁ h₂ => (hc.mem a (by omega)).symm) fun w hw h₁ h₂ => hc.bits w hw (by omega)

/-- One block changes, inside its own bytes. -/
theorem HeapInv.update (hi : HeapInv strict h B) (hB : B p = some b) (h' : XPHeap) (hx : h'.xheap = h.xheap)
    (hz : h'.zones = h.zones) (hwp : h'.map.wp = []) (hc : Confined h.map h'.map p b.size) {u : Use}
    (hok : BlockOk strict h'.map p ⟨b.size, u⟩) : HeapInv strict h' (Function.update B p (some ⟨b.size, u⟩)) := by
  -- A block of the new layout is one of the old layout with its size.
  have hold : ∀ {q c}, Function.update B p (some ⟨b.size, u⟩) q = some c → ∃ c', B q = some c' ∧ c'.size = c.size := by
    intro q c hq
    by_cases hqp : q = p
    · subst hqp
      rw [Function.update_self, Option.some.injEq] at hq
      exact ⟨b, hB, by rw [← hq]⟩
    · rw [Function.update_of_ne hqp] at hq
      exact ⟨c, hq, rfl⟩
  refine ⟨hx ▸ hi.start, hx ▸ hi.page, hx ▸ hi.total, hwp, ?_, ?_, ?_, ?_, ?_, ?_, ?_⟩
  · intro q c hq
    obtain ⟨c', hq', hs⟩ := hold hq
    rw [hx, ← hs]
    exact hi.placed hq'
  · intro q c r d hq hr hne
    obtain ⟨c', hq', hs⟩ := hold hq
    obtain ⟨d', hr', hs'⟩ := hold hr
    rw [← hs, ← hs']
    exact hi.apart hq' hr' hne
  · rw [hz, hx]
    exact hi.zone
  · intro t a q c ha hq
    obtain ⟨c', hq', hs⟩ := hold hq
    rw [hz] at ha ⊢
    rw [← hs]
    exact hi.zoneBlock ha hq'
  · rw [hz]
    exact hi.zoneZone
  · intro q c hq
    by_cases hqp : q = p
    · subst hqp
      rw [Function.update_self, Option.some.injEq] at hq
      rw [← hq]
      exact hok
    · rw [Function.update_of_ne hqp] at hq
      exact hi.others hB hc hq hqp
  · intro w hw hset
    have hp := (hi.placed hB).low
    simp only [USER_HEAP_BASE] at hp
    by_cases hin : p ≤ w + 16 ∧ w < p + b.size + 16
    · exact ⟨p, _, Function.update_self .., hin⟩
    · rw [hc.bits w hw (by omega)] at hset
      obtain ⟨q, c, hq, hw'⟩ := hi.covered hw hset
      have hqp : q ≠ p := by
        rintro rfl
        rw [hB, Option.some.injEq] at hq
        exact hin (hq ▸ hw')
      exact ⟨q, c, by rw [Function.update_of_ne hqp]; exact hq, hw'⟩

end

/-! ### Who has which block -/

/-- The lists of the allocator and of the application agree with the layout: each holds blocks that the layout gives
    to it, and none of them twice. -/
structure Lists (bs : Nat → Nat → List Nat) (rs : Nat → List FreeObject) (ls : List Nat) (B : Layout) : Prop where
  bins : ∀ {t c p}, p ∈ bs t c → B p = some ⟨Kingsley.class2Size c, .free t⟩
  binsNodup : ∀ t c, (bs t c).Nodup
  rings : ∀ {t o}, o ∈ rs t → B o.ptr = some ⟨o.size, .quarantined t⟩
  ringsNodup : ∀ t, ((rs t).map (·.ptr)).Nodup
  live : ∀ {p}, p ∈ ls → ∃ size, B p = some ⟨size, .live⟩
  liveNodup : ls.Nodup

/-- The block is in none of the lists. -/
structure Detached (bs : Nat → Nat → List Nat) (rs : Nat → List FreeObject) (ls : List Nat) (p : Nat) : Prop where
  bins : ∀ t c, p ∉ bs t c
  rings : ∀ t, ∀ o ∈ rs t, o.ptr ≠ p
  live : p ∉ ls

section
variable {bins : Nat → Nat → List Nat} {rings : Nat → List FreeObject} {live : List Nat} {B : Layout} {p : Nat}

theorem Layout.unique {size size' : Nat} {u v : Use} (h : B p = some ⟨size, u⟩) (h' : B p = some ⟨size', v⟩) :
    size = size' ∧ u = v := by
  rw [h, Option.some.injEq, Block.mk.injEq] at h'
  exact h'

/-- One size-class list of one thread replaced. -/
theorem update_bins (t c : Nat) (list : List Nat) (u d : Nat) :
    Function.update bins t (Function.update (bins t) c list) u d = if u = t ∧ d = c then list else bins u d := by
  by_cases hu : u = t
  · subst hu
    by_cases hd : d = c
    · subst hd
      simp
    · simp [hd]
  · simp [hu]

/-- A block that the allocator itself has is in none of the lists. -/
theorem Lists.detached (hl : Lists bins rings live B) (hB : B p = none ∨ ∃ size, B p = some ⟨size, .taken⟩) :
    Detached bins rings live p where
  bins t c hp := by
    rcases hB with hB | ⟨_, hB⟩ <;>
    · have := hl.bins hp
      rw [hB] at this
      cases this
  rings t o ho hp := by
    have := hl.rings ho
    rcases hB with hB | ⟨_, hB⟩ <;>
    · rw [hp, hB] at this
      cases this
  live hp := by
    obtain ⟨_, this⟩ := hl.live hp
    rcases hB with hB | ⟨_, hB⟩ <;>
    · rw [hB] at this
      cases this

/-- A block outside of the lists may be given to anyone. -/
theorem Lists.assign (hl : Lists bins rings live B) (hd : Detached bins rings live p) (b : Option Block) :
    Lists bins rings live (Function.update B p b) where
  bins {t c q} hq := by
    have hne : q ≠ p := fun h => hd.bins t c (h ▸ hq)
    rw [Function.update_of_ne hne]
    exact hl.bins hq
  binsNodup := hl.binsNodup
  rings {t o} ho := by
    rw [Function.update_of_ne (hd.rings t o ho)]
    exact hl.rings ho
  ringsNodup := hl.ringsNodup
  live {q} hq := by
    have hne : q ≠ p := fun h => hd.live (h ▸ hq)
    rw [Function.update_of_ne hne]
    exact hl.live hq
  liveNodup := hl.liveNodup

/-- The first block of a size class comes off its list. -/
theorem Lists.popBin (hl : Lists bins rings live B) {t c : Nat} {rest : List Nat} (hb : bins t c = p :: rest) :
    Lists (Function.update bins t (Function.update (bins t) c rest)) rings live B ∧
      Detached (Function.update bins t (Function.update (bins t) c rest)) rings live p := by
  have hBp := hl.bins (hb ▸ List.mem_cons_self : p ∈ bins t c)
  have hnd := hl.binsNodup t c
  rw [hb, List.nodup_cons] at hnd
  refine ⟨⟨?_, ?_, hl.rings, hl.ringsNodup, hl.live, hl.liveNodup⟩, ⟨?_, ?_, ?_⟩⟩
  · intro u d q hq
    rw [update_bins] at hq
    split at hq
    · next h =>
      rw [h.1, h.2]
      exact hl.bins (hb ▸ List.mem_cons_of_mem _ hq)
    · exact hl.bins hq
  · intro u d
    rw [update_bins]
    split
    · exact hnd.2
    · exact hl.binsNodup u d
  · intro u d hq
    rw [update_bins] at hq
    split at hq
    · exact hnd.1 hq
    · next h =>
      obtain ⟨hsize, huse⟩ := Layout.unique hBp (hl.bins hq)
      have : c + 3 = d + 3 := Nat.pow_right_injective (le_refl 2) hsize
      exact h ⟨(Use.free.inj huse).symm, by omega⟩
  · intro u o ho hop
    cases (Layout.unique hBp (hop ▸ hl.rings ho)).2
  · intro hp
    obtain ⟨_, hlive⟩ := hl.live hp
    cases (Layout.unique hBp hlive).2

/-- A free block goes to the front of the list of its class. -/
theorem Lists.pushBin (hl : Lists bins rings live B) (hd : Detached bins rings live p) {t c : Nat}
    (hB : B p = some ⟨Kingsley.class2Size c, .free t⟩) :
    Lists (Function.update bins t (Function.update (bins t) c (p :: bins t c))) rings live B := by
  refine ⟨?_, ?_, hl.rings, hl.ringsNodup, hl.live, hl.liveNodup⟩
  · intro u d q hq
    rw [update_bins] at hq
    split at hq
    · next h =>
      rw [h.1, h.2]
      rcases List.mem_cons.mp hq with rfl | hq
      · exact hB
      · exact hl.bins hq
    · exact hl.bins hq
  · intro u d
    rw [update_bins]
    split
    · exact List.nodup_cons.mpr ⟨hd.bins t c, hl.binsNodup t c⟩
    · exact hl.binsNodup u d

theorem Lists.consLive (hl : Lists bins rings live B) (hd : Detached bins rings live p) {size : Nat}
    (hB : B p = some ⟨size, .live⟩) : Lists bins rings (p :: live) B where
  bins := hl.bins
  binsNodup := hl.binsNodup
  rings := hl.rings
  ringsNodup := hl.ringsNodup
  live {q} hq := by
    rcases List.mem_cons.mp hq with rfl | hq
    · exact ⟨size, hB⟩
    · exact hl.live hq
  liveNodup := List.nodup_cons.mpr ⟨hd.live, hl.liveNodup⟩

theorem Lists.eraseLive (hl : Lists bins rings live B) (hp : p ∈ live) :
    Lists bins rings (live.erase p) B ∧ Detached bins rings (live.erase p) p := by
  obtain ⟨size, hB⟩ := hl.live hp
  refine ⟨⟨hl.bins, hl.binsNodup, hl.rings, hl.ringsNodup, fun hq => hl.live (List.mem_of_mem_erase hq),
    hl.liveNodup.erase p⟩, ⟨fun t c hq => ?_, fun t o ho hop => ?_, hl.liveNodup.not_mem_erase⟩⟩
  · cases (Layout.unique hB (hl.bins hq)).2
  · cases (Layout.unique hB (hop ▸ hl.rings ho)).2

/-- The first object of a ring comes off it. -/
theorem Lists.popRing {t : Nat} {o : FreeObject} {os : List FreeObject}
    (hl : Lists bins (Function.update rings t (o :: os)) live B) :
    Lists bins (Function.update rings t os) live B ∧ Detached bins (Function.update rings t os) live o.ptr := by
  have hBo : B o.ptr = some ⟨o.size, .quarantined t⟩ := hl.rings (t := t) (by simp)
  have hnd := hl.ringsNodup t
  rw [Function.update_self, List.map_cons, List.nodup_cons] at hnd
  have hmem : ∀ {u o'}, o' ∈ Function.update rings t os u → o' ∈ Function.update rings t (o :: os) u := by
    intro u o' ho'
    by_cases hu : u = t
    · subst hu
      rw [Function.update_self] at ho' ⊢
      exact List.mem_cons_of_mem _ ho'
    · rwa [Function.update_of_ne hu] at ho' ⊢
  refine ⟨⟨hl.bins, hl.binsNodup, fun ho' => hl.rings (hmem ho'), fun u => ?_, hl.live, hl.liveNodup⟩,
    ⟨fun u c hq => ?_, fun u o' ho' hop => ?_, fun hq => ?_⟩⟩
  · by_cases hu : u = t
    · subst hu
      rw [Function.update_self]
      exact hnd.2
    · have := hl.ringsNodup u
      rwa [Function.update_of_ne hu] at this ⊢
  · cases (Layout.unique hBo (hl.bins hq)).2
  · obtain ⟨-, huse⟩ := Layout.unique hBo (hop ▸ hl.rings (hmem ho'))
    cases huse
    rw [Function.update_self] at ho'
    exact hnd.1 (hop ▸ List.mem_map_of_mem ho')
  · obtain ⟨_, hlive⟩ := hl.live hq
    cases (Layout.unique hBo hlive).2

/-- An object in quarantine is put at the end of its ring. -/
theorem Lists.pushRing (hl : Lists bins rings live B) (hd : Detached bins rings live p) {t size : Nat}
    (hB : B p = some ⟨size, .quarantined t⟩) :
    Lists bins (Function.update rings t (rings t ++ [⟨p, size⟩])) live B := by
  refine ⟨hl.bins, hl.binsNodup, fun {u o} ho => ?_, fun u => ?_, hl.live, hl.liveNodup⟩
  · by_cases hu : u = t
    · subst hu
      rw [Function.update_self, List.mem_append, List.mem_singleton] at ho
      rcases ho with ho | rfl
      · exact hl.rings ho
      · exact hB
    · rw [Function.update_of_ne hu] at ho
      exact hl.rings ho
  · by_cases hu : u = t
    · subst hu
      rw [Function.update_self, List.map_append, List.nodup_append]
      refine ⟨hl.ringsNodup u, by simp, fun a ha b hb => ?_⟩
      obtain ⟨o, ho, rfl⟩ := List.mem_map.mp ha
      simp only [List.map_cons, List.map_nil, List.mem_singleton] at hb
      rw [hb]
      exact hd.rings u o ho
    · rw [Function.update_of_ne hu]
      exact hl.ringsNodup u

/-- Rings may be emptied: their blocks are then nowhere. -/
theorem Lists.dropRings (hl : Lists bins rings live B) {rings' : Nat → List FreeObject}
    (h : ∀ t, rings' t = rings t ∨ rings' t = []) : Lists bins rings' live B := by
  refine ⟨hl.bins, hl.binsNodup, fun {t o} ho => ?_, fun t => ?_, hl.live, hl.liveNodup⟩
  · rcases h t with h | h <;> rw [h] at ho
    · exact hl.rings ho
    · cases ho
  · rcases h t with h | h <;> rw [h]
    · exact hl.ringsNodup t
    · exact List.nodup_nil

end

end DoubleTake
