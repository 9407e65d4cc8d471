import DoubleTake.Theorems.Runs
import DoubleTake.Theorems.Watchpoints

/-! What a rollback brings back. The bytes of the heap and of the globals come from copies: the copy of the heap has
    never been written above the position that was saved with it, and the heap above that position was zero. The
    sentinel map has no copy. -/

namespace DoubleTake

open SentinelMap Transition

namespace XMemory

variable {x y z : XMemory}

/-! ### The copy of the heap -/

/-- What holds of the copies in every epoch. -/
structure CopyInv (x : XMemory) : Prop where
  heapStart : x.mapping.heapStart = some USER_HEAP_BASE
  base : x.mapping.userMemory ≤ x.heap.xheap.positionBackup
  saved : x.heap.xheap.positionBackup ≤ x.heap.xheap.position
  total : x.heap.xheap.position + x.heap.xheap.remaining = x.heapEnd
  totalBackup : x.heap.xheap.positionBackup + x.heap.xheap.remainingBackup = x.heapEnd
  zero : ∀ o, x.heap.xheap.positionBackup ≤ x.mapping.userMemory + o → x.mapping.backupMemory o = 0
  globals : ∀ g ∈ x.globals, g.heapStart = none

theorem copySize_heap {g : XMapping} {b : Nat} (h : g.heapStart = some b) (stop : Nat) :
    g.copySize stop = stop - g.userMemory := by
  simp [XMapping.copySize, h]

theorem cleanup_ok {map map' : SentinelMap} {a n : Nat} (h : map.cleanup a n = some map') :
    ∃ bitmap, map' = { map with bitmap := bitmap } := by
  obtain ⟨b, -, hb⟩ := Option.map_eq_some_iff.mp h
  exact ⟨b, hb.symm⟩

/-- A chunk moves the bump pointer and clears bits. -/
theorem chunk_ok {sz : Nat} (hc : x.apply (.chunk sz) = .ok y) :
    ∃ bitmap, ∃ n ≤ x.heap.xheap.remaining, y = { x with heap := { x.heap with
      map := { x.heap.map with bitmap := bitmap }
      xheap := { x.heap.xheap with
        remaining := x.heap.xheap.remaining - n
        position := x.heap.xheap.position + n } } } := by
  cases hm : x.heap.chunkMalloc sz with
  | error e =>
    rw [XMemory.apply, Except.bind_of_error hm] at hc
    cases hc
  | ok res =>
    rw [XMemory.apply, Except.bind_of_ok hm] at hc
    cases hc
    rw [XPHeap.chunkMalloc] at hm
    dsimp only at hm
    generalize PageSize * ((sz + PageSize - 1) / PageSize) = n at hm
    by_cases hrem : x.heap.xheap.remaining < n
    · rw [if_pos hrem] at hm
      cases hm
    · rw [if_neg hrem] at hm
      split at hm
      · cases hm
      · cases hclean : x.heap.map.cleanup x.heap.xheap.position n with
        | none =>
          rw [hclean] at hm
          cases hm
        | some map =>
          rw [hclean] at hm
          cases hm
          obtain ⟨b, rfl⟩ := cleanup_ok hclean
          exact ⟨b, n, not_lt.mp hrem, rfl⟩

/-- The copy keeps its old bytes above the position, and these are zero. -/
theorem CopyInv.epochBegin (hs : x.mapping.heapStart = some USER_HEAP_BASE)
    (hb : x.mapping.userMemory ≤ x.heap.xheap.position)
    (ht : x.heap.xheap.position + x.heap.xheap.remaining = x.heapEnd)
    (hz : ∀ o, x.heap.xheap.position ≤ x.mapping.userMemory + o → x.mapping.backupMemory o = 0)
    (hg : ∀ g ∈ x.globals, g.heapStart = none) : CopyInv x.epochBegin := by
  refine ⟨hs, hb, le_refl _, ht, ht, fun o ho => ?_, fun g hmem => ?_⟩
  · change x.mapping.backupMemory.copy 0 x.heap.map.mem x.mapping.userMemory (x.mapping.copySize x.heap.xheap.position) o = 0
    rw [copySize_heap hs, Mem.copy, if_neg (by
      have : x.heap.xheap.position ≤ x.mapping.userMemory + o := ho
      omega)]
    exact hz o ho
  · obtain ⟨g₀, hg₀, rfl⟩ := List.mem_map.mp hmem
    exact hg g₀ hg₀

theorem CopyInv.apply (h : CopyInv x) {c : Change} (hc : x.apply c = .ok y) : CopyInv y := by
  cases c with
  | chunk sz =>
    obtain ⟨_, n, hn, rfl⟩ := chunk_ok hc
    have htotal : x.heap.xheap.position + n + (x.heap.xheap.remaining - n) = x.heapEnd := by
      have := h.total
      omega
    exact ⟨h.heapStart, h.base, h.saved.trans (Nat.le_add_right _ _), htotal, h.totalBackup, h.zero, h.globals⟩
  | store addr value =>
    cases hc
    exact ⟨h.heapStart, h.base, h.saved, h.total, h.totalBackup, h.zero, h.globals⟩
  | metadata zones bins =>
    cases hc
    exact ⟨h.heapStart, h.base, h.saved, h.total, h.totalBackup, h.zero, h.globals⟩
  | epochBegin =>
    cases hc
    exact .epochBegin h.heapStart (h.base.trans h.saved) h.total (fun o ho => h.zero o (h.saved.trans ho)) h.globals
  | rollback =>
    obtain ⟨_, rfl⟩ := rollback_ok hc
    exact ⟨h.heapStart, h.base, le_refl _, h.totalBackup, h.totalBackup, h.zero, h.globals⟩

theorem copyInv (h : Reachable changes x) : CopyInv x := by
  refine Reachable.invariant (S := changes) (P := CopyInv) ?_ (fun _ _ _ hi hs => hi.apply hs) h
  rintro _ ⟨x₀, hf, rfl⟩
  exact .epochBegin hf.heapStart (hf.position ▸ hf.base) (by rw [hf.position, hf.remaining, hf.stop]) (fun o _ => hf.backup o) hf.globals

/-! ### An epoch -/

/-- What an epoch that began in `x` has left alone when it comes to `y`. -/
structure Epoch (x y : XMemory) : Prop where
  mapping : y.mapping = x.epochBegin.mapping
  globals : y.globals = x.epochBegin.globals
  zonesBackup : y.zonesBackup = x.heap.zones
  binsBackup : y.binsBackup = x.heap.bins
  positionBackup : y.heap.xheap.positionBackup = x.heap.xheap.position
  remainingBackup : y.heap.xheap.remainingBackup = x.heap.xheap.remaining
  position : x.heap.xheap.position ≤ y.heap.xheap.position
  total : y.heap.xheap.position + y.heap.xheap.remaining = x.heapEnd
  above : ∀ a, y.heap.xheap.position ≤ a → ¬ x.InGlobals a → y.mem a = x.mem a

/-- The regions are those of `x`, with other copies. -/
theorem inGlobals_epochBegin (a : Nat) : x.epochBegin.InGlobals a ↔ x.InGlobals a := by
  simp [InGlobals, XMemory.epochBegin, XMapping.backup]

theorem Epoch.apply (h : Epoch x y) {c : Change} (hin : y.InEpoch c) (hc : y.apply c = .ok z) : Epoch x z := by
  cases c with
  | chunk sz =>
    obtain ⟨_, n, hn, rfl⟩ := chunk_ok hc
    have htotal : y.heap.xheap.position + n + (y.heap.xheap.remaining - n) = x.heapEnd := by
      have := h.total
      omega
    exact ⟨h.mapping, h.globals, h.zonesBackup, h.binsBackup, h.positionBackup, h.remainingBackup,
      h.position.trans (Nat.le_add_right _ _), htotal, fun a ha hg => h.above a ((Nat.le_add_right _ _).trans ha) hg⟩
  | store addr value =>
    cases hc
    refine ⟨h.mapping, h.globals, h.zonesBackup, h.binsBackup, h.positionBackup, h.remainingBackup, h.position, h.total,
      fun a ha hg => ?_⟩
    have hne : a ≠ addr := by
      rintro rfl
      rcases hin with ⟨-, hlt⟩ | hglob
      · exact absurd hlt (not_lt.mpr ha)
      · rw [InGlobals, h.globals] at hglob
        exact hg ((inGlobals_epochBegin a).mp hglob)
    exact (Mem.set_of_ne hne).trans (h.above a ha hg)
  | metadata zones bins =>
    cases hc
    exact ⟨h.mapping, h.globals, h.zonesBackup, h.binsBackup, h.positionBackup, h.remainingBackup, h.position, h.total, h.above⟩
  | epochBegin => exact hin.elim
  | rollback => exact hin.elim

theorem Epoch.of_steps {cs : List Change} (hi : CopyInv x) (h : Steps (changes.restrict InEpoch) x.epochBegin cs y) : Epoch x y :=
  Steps.invariant (S := changes.restrict InEpoch) (P := Epoch x) (fun _ _ _ hi hs => hi.apply hs.1 hs.2) h
    ⟨rfl, rfl, rfl, rfl, rfl, rfl, le_refl _, hi.total, fun _ _ _ => rfl⟩

/-! ### The rollback -/

/-- Everything that a rollback restores is as it was in `x`. -/
structure Restored (x z : XMemory) : Prop where
  heap : ∀ a, x.mapping.userMemory ≤ a → a < x.heapEnd → z.mem a = x.mem a
  globals : ∀ a, x.InGlobals a → z.mem a = x.mem a
  position : z.heap.xheap.position = x.heap.xheap.position
  remaining : z.heap.xheap.remaining = x.heap.xheap.remaining
  zones : z.heap.zones = x.heap.zones
  bins : z.heap.bins = x.heap.bins

/-- Copying the globals back gives every byte of them its old value. -/
theorem recoverGlobals {gs : List XMapping} (hg : ∀ g ∈ gs, g.heapStart = none) (m₀ m : Mem) (a : Nat) :
    let m' := (gs.map fun g => g.backup m₀ 0).foldl (fun m g => g.recoverMemory m 0) m
    ((∃ g ∈ gs, g.userMemory ≤ a ∧ a < g.userMemory + g.startsize) → m' a = m₀ a) ∧ (m' a = m₀ a ∨ m' a = m a) := by
  induction gs generalizing m with
  | nil => exact ⟨by simp, .inr rfl⟩
  | cons g gs ih =>
    have hnone := hg g List.mem_cons_self
    -- The copy of a region puts back what `backup` has taken from there.
    have hcopy : (g.backup m₀ 0).recoverMemory m 0 a =
        if g.userMemory ≤ a ∧ a < g.userMemory + g.startsize then m₀ a else m a := by
      simp only [XMapping.recoverMemory, XMapping.backup, XMapping.copySize, hnone, Mem.copy]
      by_cases hin : g.userMemory ≤ a ∧ a < g.userMemory + g.startsize
      · rw [if_pos hin, if_pos hin, if_pos (by omega)]
        congr 1
        omega
      · rw [if_neg hin, if_neg hin]
    obtain ⟨h₁, h₂⟩ := ih (fun g' hg' => hg g' (List.mem_cons_of_mem _ hg')) ((g.backup m₀ 0).recoverMemory m 0)
    rw [List.map_cons, List.foldl_cons]
    rw [hcopy] at h₂
    constructor
    · rintro ⟨g', hmem, hin⟩
      rcases List.mem_cons.mp hmem with rfl | hmem
      · rw [if_pos hin, or_self] at h₂
        exact h₂
      · exact h₁ ⟨g', hmem, hin⟩
    · split at h₂
      · exact .inl (h₂.elim id id)
      · exact h₂

theorem recover_exact (hr : Reachable changes x) (hz : ∀ a, x.heap.xheap.position ≤ a → a < x.heapEnd → x.mem a = 0)
    {cs : List Change} (he : Steps (changes.restrict InEpoch) x.epochBegin cs y) : Restored x y.recover := by
  have hi := copyInv hr
  have h := Epoch.of_steps hi he
  have hle := hi.base.trans hi.saved
  have hpos := h.position
  have hmapping : y.mapping.recoverMemory = (x.mapping.backup x.mem x.heap.xheap.position).recoverMemory := by
    rw [h.mapping]
    rfl
  -- The globals are copied back first, then the heap up to its position at the end of the epoch.
  have hmem : ∀ a, y.recover.mem a =
      if x.mapping.userMemory ≤ a ∧ a < y.heap.xheap.position then
        if a < x.heap.xheap.position then x.mem a else 0
      else (x.globals.map fun g => g.backup x.mem 0).foldl (fun m g => g.recoverMemory m 0) y.mem a := by
    intro a
    change y.mapping.recoverMemory (y.globals.foldl (fun m g => g.recoverMemory m 0) y.mem) y.heap.xheap.position a = _
    rw [hmapping, h.globals]
    simp only [XMapping.recoverMemory, XMapping.backup, XMapping.copySize, hi.heapStart, Mem.copy]
    by_cases hin : x.mapping.userMemory ≤ a ∧ a < y.heap.xheap.position
    · rw [if_pos hin, if_pos (by omega)]
      by_cases hlt : a < x.heap.xheap.position
      · rw [if_pos hlt, if_pos (by omega)]
        congr 1
        omega
      · rw [if_neg hlt, if_neg (by omega)]
        exact hi.zero _ (by have := hi.saved; omega)
    · rw [if_neg hin, if_neg (by omega)]
      rfl
  have hglobals := fun a => recoverGlobals hi.globals x.mem y.mem a
  refine ⟨fun a h₁ h₂ => ?_, fun a ha => ?_, h.positionBackup, h.remainingBackup, h.zonesBackup, h.binsBackup⟩
  · rw [hmem]
    split
    · split
      · rfl
      · exact (hz a (by omega) h₂).symm
    · by_cases hg : x.InGlobals a
      · exact (hglobals a).1 hg
      · rcases (hglobals a).2 with hsame | hsame
        · exact hsame
        · exact hsame.trans (h.above a (by omega) hg)
  · rw [hmem]
    split
    · split
      · rfl
      · exact (hz a (by omega) (by have := h.total; omega)).symm
    · exact (hglobals a).1 ha

/-- Memory rollback is exact, before the watchpoints are installed and after. -/
theorem rollback_exact (hr : Reachable changes x) (hz : ∀ a, x.heap.xheap.position ≤ a → a < x.heapEnd → x.mem a = 0)
    {cs : List Change} (he : Steps (changes.restrict InEpoch) x.epochBegin cs y) :
    Restored x y.recover ∧ ∀ z, y.rollback = .ok z → Restored x z := by
  have hrestored := recover_exact hr hz he
  refine ⟨hrestored, fun z hz => ?_⟩
  obtain ⟨_, rfl⟩ := rollback_ok hz
  exact ⟨hrestored.heap, hrestored.globals, hrestored.position, hrestored.remaining, hrestored.zones, hrestored.bins⟩

/-- A chunk is taken, a byte of it is stored, and the rollback takes both back. -/
theorem rollback_exact_chunk : ∃ y z u, State.start.rt.memory.epochBegin.epochBegin.apply (.chunk 5) = .ok y ∧
    y.apply (.store 0x100000007 1) = .ok z ∧ z.mem 0x100000007 = 1 ∧ z.rollback = .ok u ∧ u.mem 0x100000007 = 0 := by
  have hfresh : Fresh State.start.rt.memory :=
    ⟨rfl, Nat.sub_le _ _, fun _ => rfl, rfl, rfl, by decide, fun _ hg => absurd hg List.not_mem_nil⟩
  have hchunk : (State.start.rt.memory.epochBegin.epochBegin.apply (.chunk 5)).toOption.map
      (fun y => (y.heap.xheap.position, y.mapping.userMemory, y.heap.map.wp)) = some (0x100001000, 0xfffff000, []) := by decide +kernel
  cases hy : State.start.rt.memory.epochBegin.epochBegin.apply (.chunk 5) with
  | error e =>
    rw [hy] at hchunk
    cases hchunk
  | ok y =>
    rw [hy] at hchunk
    simp only [Except.toOption, Option.map_some, Option.some.injEq, Prod.mk.injEq] at hchunk
    obtain ⟨hpos, hbase, hwp⟩ := hchunk
    have hstore : y.InEpoch (.store 0x100000007 1) := .inl ⟨by rw [hbase]; decide, by rw [hpos]; decide⟩
    have hrestored := rollback_exact (x := State.start.rt.memory.epochBegin) (.init ⟨_, hfresh, rfl⟩) (fun _ _ _ => rfl)
      (show Steps _ _ [.chunk 5, .store 0x100000007 1] _ from .cons ⟨trivial, hy⟩ (.cons ⟨hstore, rfl⟩ .nil))
    -- No watchpoint has been added, so no event is opened.
    have hroll : ∀ z : XMemory, z.heap.map.wp = [] → ∃ u, z.rollback = .ok u := by
      intro z hz
      rw [XMemory.rollback, hz]
      exact ⟨_, rfl⟩
    obtain ⟨u, hu⟩ := hroll { y with heap := { y.heap with map := { y.heap.map with mem := y.mem.set 0x100000007 1 } } } hwp
    exact ⟨y, _, u, rfl, rfl, Mem.set_self (m := y.mem) (a := 0x100000007) 1, hu,
      (hrestored.2 u hu).heap 0x100000007 (by decide) (by decide)⟩

end XMemory

/-! ### The sentinel map -/

namespace State

variable {s t u : State}

/-- The word lies in the block of a pointer that the step gives back or obtains. -/
def Touches (s : State) (o : Op) (t : State) (w : Nat) : Prop :=
  (∃ p ∈ given o, InBlock p (ObjectHeader.getSize s.mem p) w) ∨
    ∃ p ∈ t.returned o, InBlock p (ObjectHeader.getSize t.mem p) w

/-- A run from `s`, the words it touches, and the state it comes to. -/
inductive Run (s : State) : (Nat → Prop) → State → Prop where
  | begin : Run s (fun _ => False) s
  | step {W : Nat → Prop} {t u : State} {o : Op} : Run s W t → system.step t o u → Run s (fun w => W w ∨ Touches t o u w) u

def epochBegin (s : State) (current : Nat) (alive : List AliveThread) : State :=
  { s with rt := s.rt.epochBegin current alive }

def rollback (s : State) : Except Fault State := do
  let memory ← s.rt.memory.rollback
  .ok { s with rt := { s.rt with memory := memory } }

theorem rollback_bits (h : t.rollback = .ok u) (w : Nat) : u.isSet w = t.isSet w := by
  obtain ⟨memory, hroll, hu⟩ := Except.of_bind_ok h
  obtain ⟨_, rfl⟩ := XMemory.rollback_ok hroll
  cases hu
  rfl

/-- Along a run the invariant holds, and a word that is not touched keeps its bit. -/
theorem Run.bits {W : Nat → Prop} (h : Run s W t) (hi : s.Inv false) :
    t.Inv false ∧ ∀ w, HeapWord w → ¬ W w → t.isSet w = s.isSet w := by
  induction h with
  | begin => exact ⟨hi, fun _ _ _ => rfl⟩
  | step _ hstep ih =>
    obtain ⟨⟨_, hi'⟩, hbits⟩ := ih
    have hstepped := step_inv hi' hstep.1 nofun hstep.2
    refine ⟨hstepped.inv, fun w hw hout => ?_⟩
    obtain ⟨hW, htouch⟩ := not_or.mp hout
    obtain ⟨hgiven, hreturned⟩ := not_or.mp htouch
    have hlast := hstepped.bits w hw (fun p hp hin => hgiven ⟨p, hp, hin⟩) fun p hp hin => hreturned ⟨p, hp, hin⟩
    exact hlast.trans (hbits w hw hW)

/-- Rollback leaves every bit as the epoch left it. It is the bit of the epoch's beginning for the words that lie in no
    block that a call of the epoch gave back or returned. -/
theorem rollback_bitmap (h : Reachable system s) (current : Nat) (alive : List AliveThread) {W : Nat → Prop}
    (he : Run (s.epochBegin current alive) W t) (hroll : t.rollback = .ok u) :
    (∀ w, u.isSet w = t.isSet w) ∧ ∀ w, HeapWord w → ¬ W w → u.isSet w = s.isSet w := by
  obtain ⟨B, hm⟩ := reachable_inv h
  have hbegin : (s.epochBegin current alive).Inv false := ⟨B, hm.epochBegin current alive⟩
  exact ⟨rollback_bits hroll, fun w hw hW => (rollback_bits hroll w).trans ((he.bits hbegin).2 w hw hW)⟩

/-- Where an epoch touches no word below the position at which it began, the rollback brings every bit there back. -/
theorem rollback_restores_bits (h : Reachable system s) (current : Nat) (alive : List AliveThread) {W : Nat → Prop}
    (he : Run (s.epochBegin current alive) W t) (habove : ∀ w, W w → s.rt.memory.heap.xheap.position ≤ w)
    (hroll : t.rollback = .ok u) {w : Nat} (hw : HeapWord w) (hbelow : w < s.rt.memory.heap.xheap.position) : u.isSet w = s.isSet w :=
  (rollback_bitmap h current alive he hroll).2 w hw fun hW => absurd (habove w hW) (not_le.mpr hbelow)

/-- An object is there when the epoch begins; in the epoch another thread obtains one, from a chunk of its own. -/
theorem rollback_restores_bits_malloc : ∃ s t u, start.run [.malloc 0 16] = some s ∧
    (s.epochBegin 0 []).run [.malloc 1 40] = some t ∧ t.live = [0x100401020, 0x100000020] ∧ t.rollback = .ok u ∧
    u.isSet 0x100000018 = s.isSet 0x100000018 := by
  have hprobe : (start.run [.malloc 0 16]).bind (fun s => ((s.epochBegin 0 []).run [.malloc 1 40]).bind fun t =>
      t.rollback.toOption.map fun _ => (t.live, s.rt.memory.heap.xheap.position)) =
        some ([0x100401020, 0x100000020], 0x100401000) := by decide +kernel
  obtain ⟨s, hs, hprobe⟩ := Option.bind_eq_some_iff.mp hprobe
  obtain ⟨t, ht, hprobe⟩ := Option.bind_eq_some_iff.mp hprobe
  obtain ⟨u, hu, hprobe⟩ := Option.map_eq_some_iff.mp hprobe
  obtain ⟨hlive, hpos⟩ := Prod.mk.inj hprobe
  have hu := Except.of_toOption hu
  have hrun : Run (s.epochBegin 0 []) _ t := .step .begin (exec_of_run ht)
  refine ⟨s, t, u, hs, ht, hlive, hu, rollback_restores_bits (run_reachable (.init start_initial) hs) 0 [] hrun (fun w hW => ?_) hu
    ⟨by decide, by decide⟩ (by rw [hpos]; decide)⟩
  rcases hW with hW | ⟨p, hp, -⟩ | ⟨p, hp, hin⟩
  · cases hW
  · cases hp
  · rw [returned, hlive] at hp
    cases List.mem_singleton.mp hp
    rw [hpos]
    have := hin.1
    omega

/-- An object of 16 bytes is made smaller in the epoch, which marks its second word. After the rollback the object has
    16 bytes again and the word is still marked. -/
theorem rollback_keeps_mark : ¬ ∀ s, Reachable system s → ∀ current alive W t, Run (s.epochBegin current alive) W t →
    ∀ u, t.rollback = .ok u → ∀ w, HeapWord w → w < s.rt.memory.heap.xheap.position → u.isSet w = s.isSet w := by
  intro h
  have hprobe : (start.run [.malloc 0 16]).bind (fun s => ((s.epochBegin 0 []).run [.realloc 0 0x100000020 8]).bind fun t =>
      t.rollback.toOption.map fun u =>
        (decide (0x100000028 < s.rt.memory.heap.xheap.position), s.isSet 0x100000028, u.isSet 0x100000028)) =
          some (true, false, true) := by decide +kernel
  obtain ⟨s, hs, hprobe⟩ := Option.bind_eq_some_iff.mp hprobe
  obtain ⟨t, ht, hprobe⟩ := Option.bind_eq_some_iff.mp hprobe
  obtain ⟨u, hu, hprobe⟩ := Option.map_eq_some_iff.mp hprobe
  simp only [Prod.mk.injEq, decide_eq_true_eq] at hprobe
  obtain ⟨hpos, hbefore, hafter⟩ := hprobe
  have hsame := h s (run_reachable (.init start_initial) hs) 0 [] _ t (.step .begin (exec_of_run ht)) u (Except.of_toOption hu)
    0x100000028 ⟨by decide, by decide⟩ hpos
  rw [hbefore, hafter] at hsame
  cases hsame

end State

end DoubleTake
