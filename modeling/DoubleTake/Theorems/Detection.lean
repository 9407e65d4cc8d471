import DoubleTake.Theorems.Runs
import DoubleTake.Theorems.Watchpoints

/-! What the scan of an epoch end finds of the damage that the check of a single object sees. -/

namespace DoubleTake

open SentinelMap XMemory Transition

namespace State

variable {strict : Bool} {s : State} {m : Mem}

/-- The map, with the memory `m` under it. -/
def scanned (s : State) (m : Mem) : SentinelMap := { s.rt.memory.heap.map with mem := m }

/-- With the memory `m`, the guard behind the object is damaged. -/
def GuardDamaged (s : State) (m : Mem) (p : Nat) : Prop :=
  ((s.scanned m).checkObjectOverflow p (ObjectHeader.getSize s.mem p) (ObjectHeader.getObjectSize s.mem p) false).1 = true

/-- With the memory `m`, the guard behind some live object is damaged. -/
def LiveOverflow (s : State) (m : Mem) : Prop := ∃ p ∈ s.live, s.GuardDamaged m p

/-- With the memory `m`, the scan of an epoch end returns true. -/
def ScanFinds (s : State) (m : Mem) : Prop := ∃ x, (s.rt.setMem m).memory.checkHeapOverflow = .ok (true, x)

/-- The first guard word of an object. -/
def firstGuard (s : State) (p : Nat) : Nat := guardStart p (ObjectHeader.getObjectSize s.mem p)

/-- With the memory `m`, the damage behind the object shows in the first word of its guard: the header and the first sentinel are
    intact, and the word is marked, holds no preset sentinel, and does not pass for one that is partly filled where the scan takes
    it for such a word. -/
structure GuardShows (s : State) (m : Mem) (p : Nat) : Prop where
  header : Mem.Agree s.mem m (p - 16) p
  damaged : s.GuardDamaged m p
  marked : s.isSet (s.firstGuard p) = true
  suspect : (s.scanned m).isPreset (s.firstGuard p) = false
  noticed : (s.scanned m).NonAligned (getIndex (s.firstGuard p)) → (s.scanned m).isCorruptedSentinel (s.firstGuard p) = true

/-- The memory `m` is that of the allocator but for the bytes of live objects and of their guards, and no preset sentinel has got
    into a first guard word that has not held it before. -/
structure OnlyGuards (s : State) (m : Mem) : Prop where
  bytes : ∀ a, m a ≠ s.mem a → ∃ p ∈ s.live,
    s.InObject p a ∨ GuardByte p (ObjectHeader.getSize s.mem p) (ObjectHeader.getObjectSize s.mem p) a
  preset : ∀ p ∈ s.live, (s.scanned m).isPreset (s.firstGuard p) = true → m.read (s.firstGuard p) 8 = s.mem.read (s.firstGuard p) 8

theorem scanFinds_iff (h : s.Inv strict) : s.ScanFinds m ↔
    ∃ item < (s.rt.memory.heap.xheap.position - USER_HEAP_BASE) / WORD_SIZE, (s.scanned m).Reported item := by
  obtain ⟨B, h⟩ := h
  obtain ⟨b, map, hscan, hb, -⟩ := (s.rt.setMem m).memory.checkHeapOverflow_spec h.heap.start h.heap.page
  have hwp : (s.rt.setMem m).memory.heap.map.wp = [] := h.heap.wp
  rw [hwp] at hb
  constructor
  · rintro ⟨x, hx⟩
    rw [hscan, Except.ok.injEq, Prod.mk.injEq] at hx
    rcases hb.mp hx.1 with hwp | hrep
    · exact absurd rfl hwp
    · exact hrep
  · intro hrep
    rw [hb.mpr (.inr hrep)] at hscan
    exact ⟨_, hscan⟩

/-- A live object in the layout, its size and its first guard word. -/
structure Lies (s : State) (p size : Nat) : Prop where
  low : 0x100000020 ≤ p
  high : p + size + 16 ≤ s.rt.memory.heap.xheap.position
  aligned : p % 16 = 0
  whole : size % 16 = 0
  small : size < 2 ^ 64
  header : ObjectHeader.getSize s.mem p = size
  fits : ObjectHeader.getObjectSize s.mem p ≤ size
  guard : p ≤ s.firstGuard p ∧ s.firstGuard p ≤ p + size
  word : HeapWord (s.firstGuard p)

theorem lies {B : Layout} (h : MemoryInv strict s.rt s.live B) {p size : Nat} (hB : B p = some ⟨size, .live⟩) : s.Lies p size := by
  have hpl := h.heap.placed hB
  have hok := h.heap.block hB
  have hlow := hpl.low
  have hal := hpl.aligned
  obtain ⟨-, hmod, hmax⟩ := hpl.size.bounds
  have hle : ObjectHeader.getObjectSize s.mem p ≤ size := (hok.live rfl).le
  simp only [USER_HEAP_BASE] at hlow
  dsimp only at hmod hmax
  have hguard : p ≤ s.firstGuard p ∧ s.firstGuard p ≤ p + size ∧ s.firstGuard p % 8 = 0 := by
    simp only [firstGuard, guardStart]
    omega
  exact ⟨hlow, hpl.high, hal, hmod, by omega, hok.size, hle, ⟨hguard.1, hguard.2.1⟩,
    ⟨by simp only [USER_HEAP_BASE]; omega, hguard.2.2⟩⟩

/-- From the first guard word the backward search comes to the object whose first sentinel is intact. -/
theorem findObjectStartAddr_firstGuard {B : Layout} (h : MemoryInv strict s.rt s.live B) {p size : Nat}
    (hB : B p = some ⟨size, .live⟩) (hfirst : m.read (p - 8) 8 = SENTINEL_WORD) :
    (s.scanned m).findObjectStartAddr (s.firstGuard p) = some p := by
  have hl := lies h hB
  have hlow := hl.low
  have hal := hl.aligned
  have hok := h.heap.block hB
  exact findObjectStartAddr_eq ⟨by simp only [USER_HEAP_BASE]; omega, by omega⟩ (by omega) hl.word hl.guard.1 hok.marked
    (fun x hx h₁ h₂ => hok.gap (h.heap.placed hB) hx h₁ h₂) hfirst

/-- Damage that shows in a first guard word is found. -/
theorem scanFinds_of_shows (h : Reachable system s) {p : Nat} (hp : p ∈ s.live) (hshows : s.GuardShows m p) : s.ScanFinds m := by
  obtain ⟨B, hi⟩ := reachable_inv h
  obtain ⟨size, hB⟩ := hi.lists.live hp
  have hl := lies hi hB
  have hlow := hl.low
  have hhigh := hl.high
  have hal := hl.aligned
  have hmod := hl.whole
  have hword := hl.word
  obtain ⟨hm, hover, hset, hpre, hpart⟩ := hshows
  have hsent : m.read (p - 8) 8 = SENTINEL_WORD :=
    (Mem.read_congr fun a h₁ h₂ => (hm a (by omega) (by omega)).symm).trans (hi.heap.block hB).first
  have hfind := findObjectStartAddr_firstGuard hi hB hsent
  have hitem := item_getIndex hword
  have hbelow : getIndex (s.firstGuard p) < (s.rt.memory.heap.xheap.position - USER_HEAP_BASE) / WORD_SIZE := by
    have := hl.guard
    have := hword.2
    simp only [getIndex, WORD_SIZE, USER_HEAP_BASE]
    omega
  generalize s.firstGuard p = w at hset hpre hpart hfind hitem hbelow
  generalize hindex : getIndex w = item at hpart hitem hbelow
  subst hitem
  rw [scanFinds_iff ⟨B, hi⟩]
  refine ⟨item, hbelow, ⟨hindex ▸ hset, hpre⟩, hpart, p, hfind, ?_⟩
  · have hs : ObjectHeader.getSize m p = ObjectHeader.getSize s.mem p := getSize_congr (hm.mono (by omega) (by omega)) (by omega)
    have ho : ObjectHeader.getObjectSize m p = ObjectHeader.getObjectSize s.mem p :=
      getObjectSize_congr (hm.mono (by omega) (by omega)) (by omega)
    change (s.scanned m).overflowed p (ObjectHeader.getSize m p) (ObjectHeader.getObjectSize m p) = true
    rw [hs, ho]
    exact hover

/-- What the run `[malloc(1)]` leaves. -/
theorem malloc_one : ∃ t, start.run [.malloc 0 1] = some t ∧ Reachable system t ∧ t.live = [0x100000020] ∧
    ∀ item, t.rt.memory.heap.map.bitmap.isBitSet item = true → item < 8 := by
  have hprobe : (start.run [.malloc 0 1]).map (fun t => (t.live, ObjectHeader.getSize t.mem 0x100000020)) =
      some ([0x100000020], 16) := by decide +kernel
  obtain ⟨t, ht, hr⟩ := exists_run (by rw [← Option.isSome_map, hprobe]; rfl)
  rw [ht] at hprobe
  simp only [Option.map_some, Option.some.injEq, Prod.mk.injEq] at hprobe
  obtain ⟨hlive, hsize⟩ := hprobe
  refine ⟨t, ht, hr, hlive, fun item hset => ?_⟩
  obtain ⟨ha, hexec⟩ := exec_of_run ht
  obtain ⟨B, hinv⟩ : Inv false start := initial_inv start_initial
  have hstep := step_inv hinv ha nofun hexec
  by_contra hge
  have hbit := hstep.bits (getHeapAddressFromItem item) (heapWord_item item) (fun _ h => by cases h) fun p hp hin => by
    rw [returned, hlive] at hp
    cases List.mem_singleton.mp hp
    rw [hsize] at hin
    have := hin.2
    simp only [getHeapAddressFromItem, WORD_SIZE, USER_HEAP_BASE] at this
    omega
  rw [isSet, SentinelMap.isSet, getIndex_item, hset] at hbit
  simp [isSet, SentinelMap.isSet, start, Bitmap.isBitSet_eq] at hbit

/-- A byte of a block, with its header and its last sentinel, has changed: the block is that of a live object, and the byte is in
    the object or its guard. -/
theorem OnlyGuards.owner {B : Layout} (h : MemoryInv strict s.rt s.live B) (ho : s.OnlyGuards m) {q a : Nat} {b : Block}
    (hB : B q = some b) (h₁ : q ≤ a + 16) (h₂ : a < q + b.size + 16) (hne : m a ≠ s.mem a) :
    q ∈ s.live ∧ (s.InObject q a ∨ GuardByte q (ObjectHeader.getSize s.mem q) (ObjectHeader.getObjectSize s.mem q) a) := by
  obtain ⟨p, hp, hin⟩ := ho.bytes a hne
  obtain ⟨size, hBp⟩ := h.lists.live hp
  have hl := lies h hBp
  have hal := hl.aligned
  have hfits := hl.fits
  by_cases hpq : p = q
  · exact hpq ▸ ⟨hp, hin⟩
  · have hap := h.heap.apart hBp hB hpq
    have hnear : p ≤ a ∧ a < p + size + 16 := by
      rcases hin with hin | hin
      · unfold InObject at hin
        omega
      · rw [hl.header] at hin
        obtain ⟨hlo, hhi⟩ := hin
        refine ⟨by omega, ?_⟩
        split at hhi <;> omega
    dsimp only at hap
    omega

/-- What is the same in the memory `m` for a block: the header with the first sentinel, and the last sentinel unless it is the guard
    of a live object. -/
theorem OnlyGuards.sentinels {B : Layout} (h : MemoryInv strict s.rt s.live B) (ho : s.OnlyGuards m) {q : Nat} {b : Block}
    (hB : B q = some b) : Mem.Agree s.mem m (q - 16) q ∧
      (¬ (b.use = .live ∧ GuardWord q b.size (ObjectHeader.getObjectSize s.mem q) (q + b.size)) →
        Mem.Agree s.mem m (q + b.size) (q + b.size + 8)) := by
  have hlow := (h.heap.placed hB).low
  have hal := (h.heap.placed hB).aligned
  simp only [USER_HEAP_BASE] at hlow
  refine ⟨fun a h₁ h₂ => ?_, fun hno a h₁ h₂ => ?_⟩
  · by_contra hne
    obtain ⟨-, hin⟩ := ho.owner h hB (by omega) (by omega) (Ne.symm hne)
    rcases hin with hin | hin
    · exact absurd hin.1 (by omega)
    · exact absurd hin.1 (by omega)
  · by_contra hne
    obtain ⟨hq, hin⟩ := ho.owner h hB (by omega) (by omega) (Ne.symm hne)
    obtain ⟨size, hBq⟩ := h.lists.live hq
    cases hB.symm.trans hBq
    have hl := lies h hBq
    have hfits := hl.fits
    have hwhole := hl.whole
    refine hno ⟨rfl, .inl ?_⟩
    rw [hl.header, guardByte_iff (by omega)] at hin
    unfold InObject at hin
    simp only [guardStart] at h₁ h₂ hin ⊢
    omega

/-- Where only the bytes of live objects and of their guards have changed, the scan finds the damage that shows in a first guard
    word, and nothing else. -/
theorem scanFinds_iff_shows (h : Reachable system s) (ho : s.OnlyGuards m) : s.ScanFinds m ↔ ∃ p ∈ s.live, s.GuardShows m p := by
  refine ⟨fun hfinds => ?_, fun ⟨p, hp, hshows⟩ => scanFinds_of_shows h hp hshows⟩
  obtain ⟨B, hi⟩ := reachable_inv h
  obtain ⟨item, -, ⟨hset, hpre⟩, hnoticed, st, hst, hover⟩ := (scanFinds_iff ⟨B, hi⟩).mp hfinds
  obtain ⟨w, hw, rfl⟩ : ∃ w, HeapWord w ∧ getIndex w = item := ⟨_, heapWord_item item, getIndex_item item⟩
  rw [item_getIndex hw] at hpre hnoticed hst
  obtain ⟨q, b, hB, hin₁, hin₂⟩ := hi.heap.covered hw hset
  have hok := hi.heap.block hB
  have hlow := (hi.heap.placed hB).low
  simp only [USER_HEAP_BASE] at hlow
  obtain ⟨hheader, hlast⟩ := ho.sentinels hi hB
  have hsent : ∀ {x}, m.read x 8 = SENTINEL_WORD → (s.scanned m).isPreset x = true := fun hx => by
    simp [isPreset, word, scanned, hx]
  have hfirst : m.read (q - 8) 8 = SENTINEL_WORD :=
    (Mem.read_congr fun a h₁ h₂ => (hheader a (by omega) (by omega)).symm).trans hok.first
  by_cases hguard : b.use = .live ∧ GuardWord q b.size (ObjectHeader.getObjectSize s.mem q) w
  swap
  -- A sentinel of a block, which is as before.
  · rw [hsent] at hpre
    · cases hpre
    · rcases hok.bits w hw hin₁ hin₂ hset with rfl | rfl | hlive
      · exact hfirst
      · exact (Mem.read_congr (hlast hguard).symm).trans hok.last
      · exact absurd hlive hguard
  obtain ⟨size, u⟩ := b
  obtain ⟨rfl, hguard⟩ := hguard
  have hl := lies hi hB
  have hal := hl.aligned
  have hwhole := hl.whole
  have hfits := hl.fits
  have hint : GuardIntact s.mem q size (ObjectHeader.getObjectSize s.mem q) := (hok.live rfl).intact
  have hmarks : ObjectHeader.getObjectSize s.mem q < size →
      ∀ x, GuardWord q size (ObjectHeader.getObjectSize s.mem q) x → s.isSet x = true := fun hlt => (hok.live rfl).marked (.inr hlt)
  -- The first guard word holds no preset sentinel that it has not held before.
  have hkept : (s.scanned m).isPreset (s.firstGuard q) = true → m.read (s.firstGuard q) 8 = s.mem.read (s.firstGuard q) 8 := by
    intro hpreset
    by_cases hq : q ∈ s.live
    · exact ho.preset q hq hpreset
    · refine Mem.read_congr fun a h₁ h₂ => ?_
      by_contra hne
      have := hl.guard
      exact hq (ho.owner hi hB (by omega) (by dsimp only; omega) hne).1
  rcases hguard with rfl | ⟨hpart, hroom, rfl⟩
  · -- The first guard word leads to the object.
    have hfind : (s.scanned m).findObjectStartAddr (s.firstGuard q) = some q := findObjectStartAddr_firstGuard hi hB hfirst
    obtain rfl : q = st := Option.some.inj (hfind.symm.trans hst)
    have hs : ObjectHeader.getSize m q = ObjectHeader.getSize s.mem q := getSize_congr (hheader.mono (by omega) (by omega)) (by omega)
    have hz : ObjectHeader.getObjectSize m q = ObjectHeader.getObjectSize s.mem q :=
      getObjectSize_congr (hheader.mono (by omega) (by omega)) (by omega)
    change (s.scanned m).overflowed q (ObjectHeader.getSize m q) (ObjectHeader.getObjectSize m q) = true at hover
    rw [hs, hz] at hover
    by_cases hq : q ∈ s.live
    · exact ⟨q, hq, hheader, hover, hset, hpre, hnoticed⟩
    · have hsame : GuardIntact (s.scanned m).mem q size (ObjectHeader.getObjectSize s.mem q) := by
        refine hint.congr (by omega) hfits (by omega) fun a h₁ h₂ => ?_
        by_contra hne
        exact hq (ho.owner hi hB (by omega) (by dsimp only; omega) (Ne.symm hne)).1
      rw [hl.header, (overflowed_eq_false hfits hl.small).mpr hsame] at hover
      cases hover
  · -- The second one leads to the first one, which holds a part of the object and no sentinel.
    have hnot : (s.scanned m).isPreset (s.firstGuard q) = false := by
      by_contra hpreset
      have hsame := Mem.agree_of_read (hkept (Bool.eq_true_of_not_eq_false hpreset))
      refine hpreset (isPreset_of_magic ?_)
      exact (hsame _ (by omega) (by omega)).trans (hint.last_magic (by omega) hpart)
    have hmarked : s.isSet (s.firstGuard q) = true := hmarks (by dsimp only at hroom; omega) _ (.inl rfl)
    have hnone : (s.scanned m).findObjectStartAddr (s.firstGuard q + 8) = none :=
      findObjectStartAddr_none hl.word hw (Nat.lt_add_of_pos_right (by decide)) hmarked (fun x hx h₁ h₂ => by
        have := hx.2
        have := hl.word.2
        omega) hnot
    cases hnone.symm.trans hst

/-- The 7 bytes behind an object of one byte are overwritten by 0. -/
def overrun (m : Mem) : Mem := fun a => if 0x100000020 < a ∧ a < 0x100000028 then 0 else m a

/-- The 6 bytes behind an object of one byte are overwritten by 0, the seventh is not. -/
def smash (m : Mem) : Mem := fun a => if 0x100000020 < a ∧ a < 0x100000027 then 0 else m a

/-- The application, a quarantine or a free list has the block. -/
def IsBlock (s : State) (p : Nat) : Prop :=
  p ∈ s.live ∨ (∃ t, ∃ o ∈ s.rt.rings t, o.ptr = p) ∨ ∃ t c, p ∈ s.rt.memory.heap.bins t c

/-- The word is a sentinel of the block: the one in front of it, or the one behind the block of a live object that does not fill
    it. -/
def BlockSentinel (s : State) (p w : Nat) : Prop :=
  s.IsBlock p ∧ (w = p - 8 ∨ p ∈ s.live ∧ ObjectHeader.getObjectSize s.mem p < ObjectHeader.getSize s.mem p ∧
    w = p + ObjectHeader.getSize s.mem p)

/-- With the memory `m`, the size fields of all blocks are intact, and a marked sentinel of a block is damaged. -/
def SentinelDamaged (s : State) (m : Mem) : Prop :=
  (∀ p, s.IsBlock p → Mem.Agree s.mem m (p - 16) (p - 8)) ∧
  ∃ p w, s.BlockSentinel p w ∧ s.isSet w = true ∧ m.read w 8 ≠ SENTINEL_WORD

/-- With the memory `m`, `checkHeapIntegrity` returns true. -/
def IntegrityFails (s : State) (m : Mem) : Prop :=
  ∃ map, (s.scanned m).checkHeapIntegrity USER_HEAP_BASE s.rt.memory.heap.xheap.position = some (true, map)

/-- No marked word lies between the two. -/
def NoneBetween (s : State) (v w : Nat) : Prop := ∀ x, HeapWord x → v < x → x < w → s.isSet x = false

/-- With the memory `m`, the damage of the marked word `w` shows: it holds no preset sentinel and does not pass for a word that is
    partly filled where the scan takes it for one, the nearest marked word `v` below it holds a sentinel, the guard of the object
    that would start behind `v` is damaged, going by the two size fields in front of `v`, and no object is checked for a later word
    of its bitmap word. -/
structure SentinelShows (s : State) (m : Mem) (w v : Nat) : Prop where
  marked : s.isSet w = true
  suspect : (s.scanned m).isPreset w = false
  noticed : (s.scanned m).NonAligned (getIndex w) → (s.scanned m).isCorruptedSentinel w = true
  below : HeapWord v ∧ v < w ∧ s.isSet v = true ∧ s.NoneBetween v w
  sentinel : m.read v 8 = SENTINEL_WORD
  misled : (s.scanned m).overflowed (v + 8) (ObjectHeader.getSize m (v + 8)) (ObjectHeader.getObjectSize m (v + 8)) = true
  last : ∀ j, getIndex w < j → j / 64 = getIndex w / 64 → ¬ (s.scanned m).Examined j

/-- With the memory `m`, the damage of some sentinel of a block shows. -/
def DamageShows (s : State) (m : Mem) : Prop := ∃ p w v, s.BlockSentinel p w ∧ s.SentinelShows m w v

/-- The memory `m` is that of the allocator but for sentinels of blocks, and no marked word holds the sentinel of `memalign`. -/
structure OnlySentinels (s : State) (m : Mem) : Prop where
  bytes : ∀ a, m a ≠ s.mem a → ∃ p w, s.BlockSentinel p w ∧ w ≤ a ∧ a < w + 8
  memalign : ∀ w, HeapWord w → s.isSet w = true → m.read w 8 ≠ MEMALIGN_SENTINEL_WORD

theorem integrityFails_iff (h : s.Inv strict) : s.IntegrityFails m ↔
    ∃ item < (s.rt.memory.heap.xheap.position - USER_HEAP_BASE) / WORD_SIZE, (s.scanned m).ReportedLast item := by
  obtain ⟨B, h⟩ := h
  have hpage := h.heap.page
  have hstart := h.heap.start
  obtain ⟨⟨corrupted, map⟩, hscan, hs⟩ := (s.scanned m).checkHeapIntegrity_pages hstart hpage
  have hbase : USER_HEAP_BASE % 4096 = 0 := by decide
  have hitems : (s.rt.memory.heap.xheap.position - USER_HEAP_BASE) / 512 * 64 =
      (s.rt.memory.heap.xheap.position - USER_HEAP_BASE) / WORD_SIZE := by
    simp only [WORD_SIZE]
    omega
  have hlast := hs.last
  rw [hitems] at hlast
  unfold IntegrityFails
  rw [hscan]
  constructor
  · rintro ⟨map', heq⟩
    cases heq
    exact hlast.mp rfl
  · intro hrep
    exact ⟨map, by rw [show corrupted = true from hlast.mpr hrep]⟩

theorem IsBlock.layout {B : Layout} (h : MemoryInv strict s.rt s.live B) {p : Nat} (hp : s.IsBlock p) : ∃ b, B p = some b := by
  rcases hp with hp | ⟨t, o, ho, rfl⟩ | ⟨t, c, hp⟩
  · obtain ⟨size, hB⟩ := h.lists.live hp
    exact ⟨_, hB⟩
  · exact ⟨_, h.lists.rings ho⟩
  · exact ⟨_, h.lists.bins hp⟩

/-- Where a sentinel of a block lies. -/
theorem BlockSentinel.layout {B : Layout} (h : MemoryInv strict s.rt s.live B) {p w : Nat} (hw : s.BlockSentinel p w) :
    ∃ b, B p = some b ∧ HeapWord w ∧ w + 16 ≤ s.rt.memory.heap.xheap.position ∧
      (w = p - 8 ∨ ObjectHeader.getObjectSize s.mem p < b.size ∧ w = p + b.size) := by
  obtain ⟨hp, hw⟩ := hw
  obtain ⟨b, hB⟩ := hp.layout h
  have hpl := h.heap.placed hB
  have hlow := hpl.low
  have hhigh := hpl.high
  have hal := hpl.aligned
  obtain ⟨h16, hmod, -⟩ := hpl.size.bounds
  simp only [USER_HEAP_BASE] at hlow
  rcases hw with rfl | ⟨-, hlt, rfl⟩
  · exact ⟨b, hB, ⟨by simp only [USER_HEAP_BASE]; omega, by omega⟩, by omega, .inl rfl⟩
  · have hsize : ObjectHeader.getSize s.mem p = b.size := (h.heap.block hB).size
    rw [hsize] at hlt ⊢
    exact ⟨b, hB, ⟨by simp only [USER_HEAP_BASE]; omega, by omega⟩, hhigh, .inr ⟨hlt, rfl⟩⟩

/-- The damage of a sentinel that shows is found. -/
theorem integrityFails_of_shows (h : Reachable system s) (hshows : s.DamageShows m) : s.IntegrityFails m := by
  obtain ⟨B, hi⟩ := reachable_inv h
  obtain ⟨p, w, v, hsent, hset, hpre, hnoticed, ⟨hv, hlt, hmark, hgap⟩, hholds, hover, hlast⟩ := hshows
  obtain ⟨-, -, hw, hhigh, -⟩ := hsent.layout hi
  rw [integrityFails_iff ⟨B, hi⟩]
  have hbelow : getIndex w < (s.rt.memory.heap.xheap.position - USER_HEAP_BASE) / WORD_SIZE := by
    obtain ⟨h₁, h₂⟩ := hw
    simp only [getIndex, WORD_SIZE, USER_HEAP_BASE] at h₁ ⊢
    omega
  obtain ⟨fuel, hfind⟩ := @findObjectStartAddr_nearest (s.scanned m) v w hv hw hlt hmark hgap
  rw [if_pos (show (s.scanned m).word v = SENTINEL_WORD from hholds)] at hfind
  have hitem := item_getIndex hw
  generalize hindex : getIndex w = item at hnoticed hlast hbelow hitem
  subst hitem
  exact ⟨item, hbelow, ⟨⟨hindex ▸ hset, hpre⟩, hnoticed, _, hfind, hover⟩, hlast⟩

/-- A word that is no sentinel of a block is as it was. -/
theorem OnlySentinels.agree {B : Layout} (h : MemoryInv strict s.rt s.live B) (ho : s.OnlySentinels m) {x : Nat} (hx : x % 8 = 0)
    (hno : ∀ p, ¬ s.BlockSentinel p x) : Mem.Agree s.mem m x (x + 8) := by
  intro a h₁ h₂
  by_contra hne
  obtain ⟨p, w, hw, h₃, h₄⟩ := ho.bytes a (Ne.symm hne)
  obtain ⟨-, -, ⟨-, hw8⟩, -⟩ := hw.layout h
  obtain rfl : w = x := by omega
  exact hno p hw

/-- The size fields of a block and the guard of an object are no sentinels of blocks. -/
theorem not_blockSentinel {B : Layout} (h : MemoryInv strict s.rt s.live B) {q x : Nat} {b : Block} (hB : B q = some b)
    (hx : x = q - 16 ∨ b.use = .live ∧ GuardWord q b.size (ObjectHeader.getObjectSize s.mem q) x) (p : Nat) :
    ¬ s.BlockSentinel p x := by
  intro hsent
  obtain ⟨c, hBp, -, -, hw⟩ := hsent.layout h
  have hlow := (h.heap.placed hB).low
  have hal := (h.heap.placed hB).aligned
  obtain ⟨-, hmod, -⟩ := (h.heap.placed hB).size.bounds
  simp only [USER_HEAP_BASE] at hlow
  have hnear : x = q - 16 ∨ q ≤ x ∧ x ≤ q + b.size ∧ (ObjectHeader.getObjectSize s.mem q < b.size → x < q + b.size) := by
    refine hx.imp_right fun ⟨hlive, hg⟩ => ?_
    have hfits : ObjectHeader.getObjectSize s.mem q ≤ b.size := ((h.heap.block hB).live hlive).le
    rcases hg with rfl | ⟨h8, hroom, rfl⟩ <;> simp only [guardStart] <;> omega
  by_cases hpq : p = q
  · subst hpq
    cases hB.symm.trans hBp
    rcases hw with hw | ⟨hlt, hw⟩
    · omega
    · rcases hnear with hnear | ⟨-, -, hnear⟩
      · omega
      · exact absurd (hnear hlt) (by omega)
  · have hap := h.heap.apart hBp hB hpq
    omega

/-- Where only sentinels of blocks have changed, and none to that of `memalign`, the scan finds the damage of the sentinels for which
    it shows, and no other. -/
theorem integrityFails_iff_shows (h : Reachable system s) (ho : s.OnlySentinels m) : s.IntegrityFails m ↔ s.DamageShows m := by
  refine ⟨fun hfails => ?_, integrityFails_of_shows h⟩
  obtain ⟨B, hi⟩ := reachable_inv h
  obtain ⟨item, -, ⟨⟨hset, hpre⟩, hnoticed, st, hst, hover⟩, hlast⟩ := (integrityFails_iff ⟨B, hi⟩).mp hfails
  obtain ⟨w, hw, rfl⟩ : ∃ w, HeapWord w ∧ getIndex w = item := ⟨_, heapWord_item item, getIndex_item item⟩
  rw [item_getIndex hw] at hpre hnoticed hst
  obtain ⟨q, b, hB, hin₁, hin₂⟩ := hi.heap.covered hw hset
  have hok := hi.heap.block hB
  have hlow := (hi.heap.placed hB).low
  have hal := (hi.heap.placed hB).aligned
  obtain ⟨h16, hmod, hmax⟩ := (hi.heap.placed hB).size.bounds
  simp only [USER_HEAP_BASE] at hlow
  -- A word that has held a sentinel is one of a block, or it would hold it still.
  have hchanged : s.mem.read w 8 = SENTINEL_WORD → ∃ p, s.BlockSentinel p w := by
    intro hheld
    by_contra hno
    have hsame := (Mem.read_congr (ho.agree hi hw.2 fun p hp => hno ⟨p, hp⟩)).symm.trans hheld
    simp [isPreset, word, scanned, hsame] at hpre
  have hshows : (∃ p, s.BlockSentinel p w) → s.DamageShows m := by
    rintro ⟨p, hp⟩
    obtain ⟨v, hv, hlt, hmark, hgap, ⟨hholds, rfl⟩ | hmem⟩ := findObjectStartAddr_some hw hst
    · exact ⟨p, w, v, hp, hset, hpre, hnoticed, ⟨hv, hlt, hmark, hgap⟩, hholds, hover, hlast⟩
    · exact absurd hmem (ho.memalign v hv hmark)
  by_cases hguard : b.use = .live ∧ GuardWord q b.size (ObjectHeader.getObjectSize s.mem q) w
  swap
  · refine hshows (hchanged ?_)
    rcases hok.bits w hw hin₁ hin₂ hset with rfl | rfl | hlive
    · exact hok.first
    · exact hok.last
    · exact absurd hlive hguard
  -- The guard of a live object is intact, so the object that the search finds for it is another one.
  obtain ⟨size, u⟩ := b
  obtain ⟨rfl, hguard⟩ := hguard
  have hl := lies hi hB
  have hsame : ∀ {x}, GuardWord q size (ObjectHeader.getObjectSize s.mem q) x → x % 8 = 0 → Mem.Agree s.mem m x (x + 8) :=
    fun hx h8 => ho.agree hi h8 (not_blockSentinel hi hB (.inr ⟨rfl, hx⟩))
  have hint : GuardIntact s.mem q size (ObjectHeader.getObjectSize s.mem q) := (hok.live rfl).intact
  have hheld : s.mem.read w 8 = SENTINEL_WORD ∨
      w = s.firstGuard q ∧ (s.scanned m).overflowed q size (ObjectHeader.getObjectSize s.mem q) = false := by
    by_cases h8 : ObjectHeader.getObjectSize s.mem q % 8 = 0
    · rcases hguard with hfirst | ⟨hne, -⟩
      · rw [GuardIntact, if_pos h8] at hint
        have hstart : w = q + ObjectHeader.getObjectSize s.mem q := hfirst.trans (by rw [guardStart, h8, Nat.sub_zero])
        exact .inl (hstart ▸ hint)
      · exact absurd h8 hne
    · rcases hguard with hfirst | ⟨-, hroom, hsecond⟩
      · refine .inr ⟨hfirst, (overflowed_eq_false hl.fits hl.small).mpr ?_⟩
        have hword := hl.word.2
        refine hint.congr_bytes (by omega) fun a ha => ?_
        rw [guardByte_iff (by omega)] at ha
        rcases ha with ⟨h₁, h₂⟩ | ⟨hne, hroom, h₁, h₂⟩
        · exact hsame (.inl rfl) hword a (by simp only [guardStart]; omega) h₂
        · exact hsame (.inr ⟨hne, hroom, rfl⟩) (by change (s.firstGuard q + 8) % 8 = 0; omega) a h₁ h₂
      · rw [GuardIntact, if_neg h8] at hint
        exact .inl (hsecond ▸ hint.2 hroom)
  rcases hheld with hheld | ⟨rfl, hfine⟩
  · exact hshows (hchanged hheld)
  -- The nearest marked word below is the sentinel in front of the object.
  by_cases hsent : m.read (q - 8) 8 = SENTINEL_WORD
  · obtain rfl : q = st := Option.some.inj ((findObjectStartAddr_firstGuard hi hB hsent).symm.trans hst)
    have hheader : Mem.Agree s.mem m (q - 16) (q - 8) :=
      (ho.agree hi (by omega) (not_blockSentinel hi hB (.inl rfl))).mono (Nat.le_refl _) (by omega)
    have hs : ObjectHeader.getSize m q = ObjectHeader.getSize s.mem q := getSize_congr (hheader.mono (by omega) (by omega)) (by omega)
    have hz : ObjectHeader.getObjectSize m q = ObjectHeader.getObjectSize s.mem q :=
      getObjectSize_congr (hheader.mono (by omega) (by omega)) (by omega)
    change (s.scanned m).overflowed q (ObjectHeader.getSize m q) (ObjectHeader.getObjectSize m q) = true at hover
    rw [hs, hz, hl.header, hfine] at hover
    cases hover
  · have hfirst : HeapWord (q - 8) := ⟨by simp only [USER_HEAP_BASE]; omega, by omega⟩
    have hnot : (s.scanned m).isPreset (q - 8) = false := by
      rw [isPreset, Bool.or_eq_false_iff, beq_eq_false_iff_ne, beq_eq_false_iff_ne]
      exact ⟨hsent, ho.memalign _ hfirst hok.marked⟩
    have hnone : (s.scanned m).findObjectStartAddr (s.firstGuard q) = none :=
      findObjectStartAddr_none hfirst hw (by have := hl.guard; omega) hok.marked
        (fun x hx h₁ h₂ => hok.gap (hi.heap.placed hB) hx (by have := hx.2; omega) h₂) hnot
    cases hnone.symm.trans hst

/-- A damaged sentinel of a block is found when the damage of some sentinel shows, and where only sentinels of blocks have changed it
    is found in no other case. -/
theorem sentinel_damage_found_when (h : Reachable system s) (m : Mem) :
    ((¬ s.SentinelDamaged m ∨ s.DamageShows m) → (s.SentinelDamaged m → s.IntegrityFails m)) ∧
      (s.OnlySentinels m → ((s.SentinelDamaged m → s.IntegrityFails m) ↔ (¬ s.SentinelDamaged m ∨ s.DamageShows m))) := by
  constructor
  · rintro (hno | hshows) hdamaged
    · exact absurd hdamaged hno
    · exact integrityFails_of_shows h hshows
  · intro ho
    rw [integrityFails_iff_shows h ho, imp_iff_not_or]

/-- The word at an address is overwritten by 0. -/
def smashWord (m : Mem) (w : Nat) : Mem := fun a => if w ≤ a ∧ a < w + 8 then 0 else m a

theorem smashWord_read (m : Mem) (w : Nat) : (smashWord m w).read w 8 = 0 := by
  have hzero : Mem.Agree (smashWord m w) (fun _ => 0) w (w + 8) := fun _ h₁ h₂ => if_pos ⟨h₁, h₂⟩
  rw [Mem.read_congr hzero]
  rfl

/-- The allocator itself leaves no sentinel of `memalign` in a marked word. -/
theorem not_memalign {B : Layout} (h : MemoryInv strict s.rt s.live B) {w : Nat} (hw : HeapWord w) (hset : s.isSet w = true) :
    s.mem.read w 8 ≠ MEMALIGN_SENTINEL_WORD := by
  obtain ⟨q, ⟨size, u⟩, hB, hin₁, hin₂⟩ := h.heap.covered hw hset
  have hok := h.heap.block hB
  have hal := (h.heap.placed hB).aligned
  have hsent : ∀ {x}, s.mem.read x 8 = SENTINEL_WORD → s.mem.read x 8 ≠ MEMALIGN_SENTINEL_WORD := fun hx => by
    rw [hx]
    decide
  have hpart : s.rt.memory.heap.map.isPreset w = false → s.mem.read w 8 ≠ MEMALIGN_SENTINEL_WORD := by
    intro hpre
    rw [isPreset, Bool.or_eq_false_iff, beq_eq_false_iff_ne, beq_eq_false_iff_ne] at hpre
    exact hpre.2
  rcases hok.bits w hw hin₁ hin₂ hset with rfl | rfl | ⟨hlive, hg⟩
  · exact hsent hok.first
  · exact hsent hok.last
  · have hint : GuardIntact s.mem q size (ObjectHeader.getObjectSize s.mem q) := (hok.live hlive).intact
    by_cases h8 : ObjectHeader.getObjectSize s.mem q % 8 = 0
    · rcases hg with rfl | ⟨hne, -⟩
      · rw [GuardIntact, if_pos h8] at hint
        have hstart : guardStart q (ObjectHeader.getObjectSize s.mem q) = q + ObjectHeader.getObjectSize s.mem q := by
          rw [guardStart, h8, Nat.sub_zero]
        exact hsent (hstart ▸ hint)
      · exact absurd h8 hne
    · rcases hg with rfl | ⟨-, hroom, rfl⟩
      · exact hpart (isPreset_of_magic (hint.last_magic (by omega) h8))
      · rw [GuardIntact, if_neg h8] at hint
        exact hsent (hint.2 hroom)

/-- The sentinel in front of the second of two objects: the sentinel behind the first block is taken for one in front of an
    object, and there is no guard where that object would end. -/
theorem sentinel_damage_found_second : ∃ t, start.run [.malloc 0 16, .malloc 0 16] = some t ∧
    t.OnlySentinels (smashWord t.mem 0x100000048) ∧ t.SentinelDamaged (smashWord t.mem 0x100000048) ∧
    t.IntegrityFails (smashWord t.mem 0x100000048) := by
  have hprobe : (start.run [.malloc 0 16, .malloc 0 16]).map (fun t => t.live) = some [0x100000050, 0x100000020] := by
    decide +kernel
  have hscan : (start.run [.malloc 0 16, .malloc 0 16]).map (fun t =>
      let map := t.scanned (smashWord t.mem 0x100000048)
      ((List.range 64).all fun i => (map.bitmap.isBitSet i && !map.isPreset (getHeapAddressFromItem i)) == (i == 9),
        (List.range 10).all fun i => map.bitmap.isBitSet i == (i == 3 || i == 6 || i == 9),
        map.isCorruptedSentinel 0x100000048, map.word 0x100000030 == SENTINEL_WORD,
        map.overflowed 0x100000038 (ObjectHeader.getSize map.mem 0x100000038) (ObjectHeader.getObjectSize map.mem 0x100000038))) =
      some (true, true, true, true, true) := by decide +kernel
  obtain ⟨t, ht, hr⟩ := exists_run (by rw [← Option.isSome_map, hprobe]; rfl)
  rw [ht] at hprobe hscan
  have hlive : t.live = [0x100000050, 0x100000020] := Option.some.inj hprobe
  simp only [Option.map_some, Option.some.injEq, Prod.mk.injEq, List.all_eq_true, List.mem_range, beq_iff_eq] at hscan
  obtain ⟨hsuspect, hmarks, hbad, hholds, hover⟩ := hscan
  obtain ⟨B, hi⟩ := reachable_inv hr
  have hblock : t.BlockSentinel 0x100000050 0x100000048 := ⟨.inl (hlive ▸ List.mem_cons_self), .inl rfl⟩
  have honly : t.OnlySentinels (smashWord t.mem 0x100000048) := by
    refine ⟨fun a hne => ⟨_, _, hblock, ?_⟩, fun w hw hset => ?_⟩
    · by_contra hout
      exact hne (if_neg hout)
    · by_cases hw' : w = 0x100000048
      · rw [hw', smashWord_read]
        decide
      · have hsame : (smashWord t.mem 0x100000048).read w 8 = t.mem.read w 8 :=
          Mem.read_congr fun a h₁ h₂ => if_neg (by have := hw.2; omega)
        rw [hsame]
        exact not_memalign hi hw hset
  have hnine := hsuspect 9 (by decide)
  simp only [beq_self_eq_true, Bool.and_eq_true, Bool.not_eq_true'] at hnine
  have hdamaged : t.SentinelDamaged (smashWord t.mem 0x100000048) := by
    refine ⟨fun p hp => ?_, _, _, hblock, hnine.1, by rw [smashWord_read]; decide⟩
    obtain ⟨b, hB⟩ := hp.layout hi
    have hal := (hi.heap.placed hB).aligned
    exact (honly.agree hi (by omega) (not_blockSentinel hi hB (.inl rfl))).mono (Nat.le_refl _) (by omega)
  have hsix := hmarks 6 (by decide)
  have hshows : t.SentinelShows (smashWord t.mem 0x100000048) 0x100000048 0x100000030 := by
    refine ⟨hnine.1, hnine.2, fun _ => hbad, ⟨⟨by decide, by decide⟩, by decide, hsix, fun x hx h₁ h₂ => ?_⟩, hholds, hover,
      fun j hj hword hexam => ?_⟩
    · have hx' := hmarks (getIndex x) (by simp only [getIndex, WORD_SIZE, USER_HEAP_BASE]; omega)
      have hitem : getIndex x = 7 ∨ getIndex x = 8 := by
        have := hx.2
        simp only [getIndex, WORD_SIZE, USER_HEAP_BASE]
        omega
      rw [isSet, SentinelMap.isSet]
      rcases hitem with hitem | hitem <;> rw [hitem] at hx' ⊢ <;> exact hx'
    · have hnine' : getIndex 0x100000048 = 9 := by decide
      rw [hnine'] at hj hword
      have hnot := hsuspect j (by omega)
      rw [hexam.1.1, hexam.1.2, show (j == 9) = false from beq_eq_false_iff_ne.mpr (by omega)] at hnot
      cases hnot
  exact ⟨t, ht, honly, hdamaged, ((sentinel_damage_found_when hr _).2 honly).mpr (.inr ⟨_, _, _, hblock, hshows⟩) hdamaged⟩

/-- No marked word is in front of the sentinel of the first block, so that no object is found for it. -/
theorem first_sentinel_missed : ¬ ∀ s, Reachable system s → ∀ m, s.SentinelDamaged m → s.IntegrityFails m := by
  intro h
  obtain ⟨t, ht, hr, hlive, hbits⟩ := malloc_one
  have hprobe : (start.run [.malloc 0 1]).map (fun t =>
      let map := t.scanned (smashWord t.mem 0x100000018)
      ((List.range 8).all fun i => (map.bitmap.isBitSet i && !map.isPreset (getHeapAddressFromItem i)) == (i == 3 || i == 4),
        map.bitmap.isBitSet 5, map.isCorruptedSentinel (getHeapAddressFromItem 4),
        map.findObjectStartAddr (getHeapAddressFromItem 3), t.isSet 0x100000018)) =
      some (true, true, false, none, true) := by decide +kernel
  rw [ht] at hprobe
  simp only [Option.map_some, Option.some.injEq, Prod.mk.injEq, List.all_eq_true, List.mem_range, beq_iff_eq] at hprobe
  obtain ⟨hsuspect, hnext, hbad, hfind, hset⟩ := hprobe
  have hdamaged : t.SentinelDamaged (smashWord t.mem 0x100000018) := by
    refine ⟨fun p hp a h₁ h₂ => ?_, 0x100000020, 0x100000018, ⟨.inl (hlive ▸ List.mem_singleton_self _), .inl rfl⟩, hset, ?_⟩
    · obtain ⟨B, hi⟩ := reachable_inv hr
      obtain ⟨b, hB⟩ := hp.layout hi
      have hlow := (hi.heap.placed hB).low
      have hal := (hi.heap.placed hB).aligned
      simp only [USER_HEAP_BASE] at hlow
      exact (if_neg (by omega)).symm
    · rw [smashWord_read]
      decide
  obtain ⟨item, -, ⟨⟨hbit, hpre⟩, hexcuse, st, hst, -⟩, -⟩ :=
    (integrityFails_iff (reachable_inv hr)).mp (h t hr _ hdamaged)
  have hitem := hsuspect item (hbits item hbit)
  rw [hbit, hpre, Bool.not_false, Bool.and_true, eq_comm, Bool.or_eq_true, beq_iff_eq, beq_iff_eq] at hitem
  rcases hitem with rfl | rfl
  · rw [hfind] at hst
    cases hst
  · have hflag : (t.scanned (smashWord t.mem 0x100000018)).NonAligned 4 :=
      ⟨4, le_refl 4, rfl, ⟨hbit, hpre⟩, hnext⟩
    rw [hexcuse hflag] at hbad
    cases hbad

end State

end DoubleTake
