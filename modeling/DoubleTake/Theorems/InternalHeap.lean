import DoubleTake.InternalHeap
import DoubleTake.Lib.Extents
import DoubleTake.Lib.LinkedList
import DoubleTake.Theorems.Free
import DoubleTake.Theorems.SourceInternalHeap

/-! The heap for the data of the runtime under every interleaving of its threads' calls: the objects that the runtime has lie apart
    from each other and from the bookkeeping of the heap, and nothing but a store to a byte of an object changes it. -/

namespace DoubleTake

open Extents Transition

namespace InternalHeap

open Kingsley MallocInfo
open XSync (INTERNAL_HEAP_BASE)
open SourceInternalHeap (pages)

variable {h h' : InternalHeap} {B : Layout} {bins : Nat → Nat → List Nat} {tid sz p q : Nat} {b : Block}

/-! ### What holds of the heap -/

/-- Who has a range of the heap. -/
inductive Owner where
  | arena (tid : Nat)
  | zone (tid : Nat)
  | block (p : Nat)
  deriving DecidableEq

/-- Where the arena of a thread has space. -/
def arenaSpace (h : InternalHeap) (tid : Nat) : Nat := h.mem.read ((h.zones tid).currentArena + 8) 8

/-- A thread has the data of its arena and the space in it; a block is there with its header. -/
def range (h : InternalHeap) (B : Layout) : Owner → Option (Nat × Nat)
  | .arena tid =>
    if (h.zones tid).currentArena = 0 then none else some ((h.zones tid).currentArena, (h.zones tid).currentArena + 16)
  | .zone tid =>
    if (h.zones tid).currentArena = 0 then none else some (h.arenaSpace tid, h.arenaSpace tid + (h.zones tid).sizeRemaining.toNat)
  | .block p => (B p).map fun b => (p - 16, p + b.size + 16)

/-- The pages that are given out are whole, and so are those that are left. -/
structure Paged (s : SourceInternalHeap) : Prop where
  magic : s.magic = SourceInternalHeap.MAGIC
  start : INTERNAL_HEAP_BASE ≤ s.start
  le : s.start ≤ s.position
  page : s.position % PageSize = 0
  total : s.position + s.remaining = s.end
  limit : s.end < 2 ^ 47

/-- A block begins with its header. -/
structure Headed (m : Mem) (p : Nat) (b : Block) : Prop where
  aligned : p % 16 = 0
  size : BlockSize b.size
  header : ObjectHeader.getSize m p = b.size

/-- The blocks of a layout are those of the heap, and the lists of the free ones are linked. -/
structure HeapOk (h : InternalHeap) (B : Layout) (bins : Nat → Nat → List Nat) : Prop where
  source : Paged h.source
  apart : Apart (h.range B) h.source.start h.source.position
  zone : ∀ {t}, (h.zones t).currentArena ≠ 0 → h.arenaSpace t % 16 = 0 ∧ 0 ≤ (h.zones t).sizeRemaining
  block : ∀ {p b}, B p = some b → Headed h.mem p b
  lists : Lists bins (fun _ => []) [] B
  chains : ∀ t c, h.mem.Chain (h.heads t c) (bins t c)

section
variable {t u : Nat}

theorem range_arena (hc : (h.zones t).currentArena ≠ 0) :
    h.range B (.arena t) = some ((h.zones t).currentArena, (h.zones t).currentArena + 16) := if_neg hc

theorem range_zone (hc : (h.zones t).currentArena ≠ 0) :
    h.range B (.zone t) = some (h.arenaSpace t, h.arenaSpace t + (h.zones t).sizeRemaining.toNat) := if_neg hc

theorem range_block (hB : B p = some b) : h.range B (.block p) = some (p - 16, p + b.size + 16) := by simp [range, hB]

theorem range_block_none (hB : B p = none) : h.range B (.block p) = none := by simp [range, hB]

theorem range_update : h.range (Function.update B p (some b)) = Function.update (h.range B) (.block p) (some (p - 16, p + b.size + 16)) := by
  funext o
  cases o with
  | arena t => rfl
  | zone t => rfl
  | block q =>
    by_cases hq : q = p
    · subst hq
      simp [range]
    · simp [range, hq]

theorem HeapOk.block_bounds (hi : HeapOk h B bins) (hB : B p = some b) :
    2 ^ 44 ≤ p - 16 ∧ p + b.size + 16 ≤ h.source.position ∧ h.source.position < 2 ^ 47 := by
  obtain ⟨hlo, -, hhi⟩ := hi.apart.within (range_block hB)
  have hstart := hi.source.start
  have htotal := hi.source.total
  have hlimit := hi.source.limit
  simp only [INTERNAL_HEAP_BASE] at hstart
  omega

theorem HeapOk.arena_bounds (hi : HeapOk h B bins) (hc : (h.zones t).currentArena ≠ 0) :
    2 ^ 44 ≤ (h.zones t).currentArena ∧ 2 ^ 44 ≤ h.arenaSpace t ∧
      h.arenaSpace t + (h.zones t).sizeRemaining.toNat ≤ h.source.position ∧ h.source.position < 2 ^ 47 := by
  obtain ⟨hlo, -, -⟩ := hi.apart.within (range_arena hc)
  obtain ⟨hlo', -, hhi⟩ := hi.apart.within (range_zone hc)
  have hstart := hi.source.start
  have htotal := hi.source.total
  have hlimit := hi.source.limit
  simp only [INTERNAL_HEAP_BASE] at hstart
  omega

/-- A change inside the range of one owner is outside of the ranges of all others. -/
theorem HeapOk.elsewhere (hi : HeapOk h B bins) {o v : Owner} {a c x y : Nat} {m : Mem} (ho : h.range B o = some (a, c))
    (hm : ∀ z, z < a ∨ c ≤ z → h.mem z = m z) (hv : v ≠ o) (hr : h.range B v = some (x, y)) : h.mem.Agree m x y := by
  intro z h₁ h₂
  rcases hi.apart.apart hv hr ho with hle | hle
  · exact hm z (.inl (by omega))
  · exact hm z (.inr (by omega))

/-- The bytes that the heap depends on: those that say where the arenas have space, the headers, and the links of the free blocks. -/
theorem HeapOk.congr (hi : HeapOk h B bins) {m : Mem}
    (harena : ∀ t, (h.zones t).currentArena ≠ 0 → h.mem.Agree m ((h.zones t).currentArena + 8) ((h.zones t).currentArena + 16))
    (hheader : ∀ p b, B p = some b → h.mem.Agree m (p - 16) (p - 12))
    (hlink : ∀ t c p, p ∈ bins t c → h.mem.Agree m p (p + 8)) : HeapOk { h with mem := m } B bins := by
  have hspace : ∀ t, (h.zones t).currentArena ≠ 0 → arenaSpace { h with mem := m } t = h.arenaSpace t := fun t hc =>
    (Mem.read_congr (harena t hc)).symm
  refine ⟨hi.source, ?_, fun {t} hc => ?_, fun {p b} hB => ?_, hi.lists, fun t c => (hi.chains t c).congr (hlink t c)⟩
  · have hrange : range { h with mem := m } B = h.range B := by
      funext o
      cases o with
      | arena t => rfl
      | block p => rfl
      | zone t =>
        simp only [range]
        split
        · rfl
        · next hc => rw [hspace t hc]
    rw [hrange]
    exact hi.apart
  · rw [hspace t hc]
    exact hi.zone hc
  · obtain ⟨h₁, h₂, h₃⟩ := hi.block hB
    have hp := (hi.block_bounds hB).1
    exact ⟨h₁, h₂, (getSize_congr (hheader p b hB) (by omega)).trans h₃⟩

theorem HeapOk.headed_of_agree (hi : HeapOk h B bins) {m : Mem} (hB : B p = some b)
    (hm : h.mem.Agree m (p - 16) (p + b.size + 16)) : Headed m p b := by
  obtain ⟨h₁, h₂, h₃⟩ := hi.block hB
  have hp := (hi.block_bounds hB).1
  exact ⟨h₁, h₂, (getSize_congr (hm.mono (by omega) (by omega)) (by omega)).trans h₃⟩

theorem HeapOk.chain_of_agree (hi : HeapOk h B bins) {m : Mem}
    (hm : ∀ p b, B p = some b → h.mem.Agree m (p - 16) (p + b.size + 16)) (t c : Nat) : m.Chain (h.heads t c) (bins t c) := by
  refine (hi.chains t c).congr fun q hq => ?_
  have hB := hi.lists.bins hq
  have hsize := (hi.block hB).size.bounds
  dsimp only at hsize
  exact (hm q _ hB).mono (by omega) (by dsimp only; omega)

/-- What is in a block that is not free has no meaning to the heap. -/
theorem HeapOk.writeBlock (hi : HeapOk h B bins) {m : Mem} (hB : B p = some b) (hfree : ∀ t c, p ∉ bins t c)
    (hm : ∀ x, x < p ∨ p + b.size ≤ x → h.mem x = m x) : HeapOk { h with mem := m } B bins := by
  have hother {o x y} (ho : o ≠ .block p) (hr : h.range B o = some (x, y)) : h.mem.Agree m x y :=
    hi.elsewhere (range_block hB) (fun z hz => hm z (by omega)) ho hr
  refine hi.congr (fun t ht => ?_) (fun q c hq => ?_) fun t d q hq => ?_
  · exact (hother (fun hne => by cases hne) (range_arena ht)).mono (by omega) (by omega)
  · by_cases hqp : q = p
    · subst hqp
      have hlow := (hi.block_bounds hB).1
      exact fun x _ hx => hm x (.inl (by omega))
    · exact (hother (fun hne => hqp (Owner.block.inj hne)) (range_block hq)).mono (by omega) (by omega)
  · have hBq := hi.lists.bins hq
    have hsize := (hi.block hBq).size.bounds
    have hqp : q ≠ p := fun hqp => hfree t d (hqp ▸ hq)
    dsimp only at hsize
    exact (hother (fun hne => hqp (Owner.block.inj hne)) (range_block hBq)).mono (by omega) (by dsimp only; omega)

end

/-! ### The lists of the size classes -/

section
variable {t c e size : Nat} {u v : Use}

theorem setHead_heads (h : InternalHeap) (t c e u d : Nat) :
    (h.setHead t c e).heads u d = if u = t ∧ d = c then e else h.heads u d := by
  simp only [setHead]
  by_cases hu : u = t
  · subst hu
    by_cases hd : d = c
    · subst hd
      simp
    · simp [hd]
  · simp [hu]

/-- A block passes from hand to hand. -/
theorem range_pass (hB : B p = some ⟨size, u⟩) : h.range (Function.update B p (some ⟨size, v⟩)) = h.range B := by
  funext o
  cases o with
  | arena t => rfl
  | zone t => rfl
  | block q =>
    by_cases hq : q = p
    · subst hq
      simp [range, hB]
    · simp [range, hq]

theorem HeapOk.headed_pass (hi : HeapOk h B bins) (hB : B p = some ⟨size, u⟩) {q : Nat} {b : Block}
    (hq : Function.update B p (some ⟨size, v⟩) q = some b) : Headed h.mem q b := by
  by_cases hqp : q = p
  · subst hqp
    rw [Function.update_self] at hq
    cases hq
    obtain ⟨h₁, h₂, h₃⟩ := hi.block hB
    exact ⟨h₁, h₂, h₃⟩
  · rw [Function.update_of_ne hqp] at hq
    exact hi.block hq

theorem HeapOk.getSize (hi : HeapOk h B bins) (hB : B p = some b) : h.getSize p = some b.size := by
  obtain ⟨-, hsize, hheader⟩ := hi.block hB
  rw [InternalHeap.getSize, hheader]
  exact if_pos (by have := hsize.bounds; omega)

/-- The first free block of a class goes to the runtime. -/
theorem HeapOk.dictMalloc (hi : HeapOk h B bins) (hh : h.heads t c ≠ 0) :
    ∃ h' bins', h.dictMalloc t c = some (h.heads t c, h') ∧ h'.mem = h.mem ∧ B (h.heads t c) = some ⟨class2Size c, .free t⟩ ∧
      HeapOk h' (Function.update B (h.heads t c) (some ⟨class2Size c, .live⟩)) bins' := by
  obtain ⟨rest, hbin, hchain⟩ := (hi.chains t c).pop hh
  have hB := hi.lists.bins (hbin ▸ List.mem_cons_self : h.heads t c ∈ bins t c)
  obtain ⟨hl, hd⟩ := hi.lists.popBin hbin
  have hsize := (hi.block hB).size
  have hget : (h.setHead t c (h.mem.read (h.heads t c) 8)).getSize (h.heads t c) = some (class2Size c) := hi.getSize hB
  refine ⟨h.setHead t c (h.mem.read (h.heads t c) 8), _, ?_, rfl, hB, hi.source, ?_, fun {_} => hi.zone,
    fun hq => hi.headed_pass hB hq, hl.assign hd _, fun a d => ?_⟩
  · rw [InternalHeap.dictMalloc, get, if_neg hh]
    dsimp only
    have hbounds := hsize.bounds
    dsimp only at hbounds
    rw [if_neg hh, hget, Option.bind_some, if_pos (by simp only [dictSize]; omega)]
  · change Apart (h.range _) _ _
    rw [range_pass hB]
    exact hi.apart
  · rw [setHead_heads, update_bins]
    split
    · exact hchain
    · exact hi.chains a d

/-- A block of the runtime goes to the front of the list of its class. -/
theorem HeapOk.dictFree (hi : HeapOk h B bins) (hB : B p = some ⟨class2Size c, .live⟩) (t : Nat) :
    ∃ h' bins', h.dictFree t c p = some h' ∧ (∀ x, x < p ∨ p + 8 ≤ x → h'.mem x = h.mem x) ∧
      HeapOk h' (Function.update B p (some ⟨class2Size c, .free t⟩)) bins' := by
  obtain ⟨hlow, hhigh, hlimit⟩ := hi.block_bounds hB
  have hbounds := (hi.block hB).size.bounds
  dsimp only at hbounds hhigh
  have hd : Detached bins (fun _ => []) [] p := by
    refine ⟨fun a d hp => ?_, fun _ _ ho => (List.not_mem_nil ho).elim, List.not_mem_nil⟩
    cases (Layout.unique hB (hi.lists.bins hp)).2
  have hl := (hi.lists.assign hd (some ⟨class2Size c, .free t⟩)).pushBin hd (Function.update_self ..)
  -- The link is written to the first word of the block.
  have hout : ∀ x, x < p ∨ p + 8 ≤ x → h.mem.write p 8 (h.heads t c) x = h.mem x := fun x hx => Mem.write_of_not_mem hx
  have hhead : h.heads t c < 2 ^ 64 := by
    by_cases hz : h.heads t c = 0
    · omega
    · obtain ⟨rest, hbin, -⟩ := (hi.chains t c).pop hz
      have := hi.block_bounds (hi.lists.bins (hbin ▸ List.mem_cons_self : h.heads t c ∈ bins t c))
      omega
  have hmem : HeapOk { h with mem := h.mem.write p 8 (h.heads t c) } B bins :=
    hi.writeBlock hB hd.bins fun x hx => (hout x (by dsimp only at hx; omega)).symm
  refine ⟨h.insert t c p, _, ?_, hout, hmem.source, ?_, fun {_} => hmem.zone, fun hq => hmem.headed_pass hB hq, hl, fun a d => ?_⟩
  · rw [InternalHeap.dictFree, hi.getSize hB, Option.bind_some, if_pos (by simp only [dictSize]; omega)]
  · change Apart (range { h with mem := h.mem.write p 8 (h.heads t c) } _) _ _
    rw [range_pass hB]
    exact hmem.apart
  · rw [InternalHeap.insert, setHead_heads, update_bins]
    split
    · refine (hi.chains t c).push hhead (by omega) fun q hq => ?_
      have hBq := hi.lists.bins hq
      have hqp : q ≠ p := fun hqp => hd.bins t c (hqp ▸ hq)
      have hqlow := (hi.block_bounds hBq).1
      have hap := hi.apart.apart (fun hne => hqp (Owner.block.inj hne)) (range_block hBq) (range_block hB)
      dsimp only at hap
      omega
    · exact hmem.chains a d

end

/-! ### The zones -/

/-- The arena of the thread has too little left for so many bytes, and there are too few pages for another arena. -/
def Exhausted (h : InternalHeap) (tid sz : Nat) : Prop :=
  ((h.zones tid).currentArena = 0 ∨ (h.zones tid).sizeRemaining < sz) ∧
    h.source.remaining < pages (max INTERNAL_HEAP_CHUNK sz + XPHeap.arenaSize)

/-- The blocks are as they were, with their headers. -/
def Kept (h h' : InternalHeap) (B : Layout) : Prop := ∀ p b, B p = some b → h.mem.Agree h'.mem (p - 16) (p + b.size + 16)

section
variable {t u size : Nat}

theorem Paged.malloc {s : SourceInternalHeap} (hs : Paged s) (hsz : sz ≤ 2 ^ 33) :
    s.remaining < pages sz ∧ s.malloc sz = none ∨
      pages sz ≤ s.remaining ∧ ∃ s', s.malloc sz = some (s.position, s') ∧ Paged s' ∧ s'.start = s.start ∧
        s'.position = s.position + pages sz := by
  have hmod : PageSize * ((sz + PageSize - 1) % 2 ^ 64 / PageSize) = pages sz := by
    rw [Nat.mod_eq_of_lt (by simp only [PageSize]; omega), pages]
  rw [SourceInternalHeap.malloc, if_neg (not_not.mpr hs.magic)]
  dsimp only
  rw [hmod]
  rcases lt_or_ge s.remaining (pages sz) with hlt | hge
  · exact .inl ⟨hlt, if_pos hlt⟩
  · have hpage := SourceInternalHeap.pages_mod sz
    obtain ⟨h₁, h₂, h₃, h₄, h₅, h₆⟩ := hs
    refine .inr ⟨hge, _, if_neg (not_lt.mpr hge), ⟨h₁, h₂, ?_, ?_, ?_, h₆⟩, rfl, rfl⟩
    · dsimp only
      omega
    · dsimp only
      rw [Nat.add_mod, h₄, hpage]
      rfl
    · dsimp only
      omega

/-- The arenas of all threads but one are as they were. -/
structure Others (h h' : InternalHeap) (t : Nat) : Prop where
  zones : ∀ u, u ≠ t → h'.zones u = h.zones u
  space : ∀ u, u ≠ t → (h.zones u).currentArena ≠ 0 → h'.arenaSpace u = h.arenaSpace u

theorem Others.of_agree (hz : ∀ u, u ≠ t → h'.zones u = h.zones u)
    (hm : ∀ u, u ≠ t → (h.zones u).currentArena ≠ 0 →
      h.mem.Agree h'.mem (h.zones u).currentArena ((h.zones u).currentArena + 16)) : Others h h' t := by
  refine ⟨hz, fun u hu hc => ?_⟩
  rw [arenaSpace, hz u hu]
  exact (Mem.read_congr ((hm u hu hc).mono (by omega) (by omega))).symm

/-- What the ranges are when the arena of one thread has changed. -/
theorem Others.ranges (ho : Others h h' t) (hc : (h'.zones t).currentArena ≠ 0) :
    h'.range B = Function.update (Function.update (h.range B) (.arena t)
      (some ((h'.zones t).currentArena, (h'.zones t).currentArena + 16))) (.zone t)
      (some (h'.arenaSpace t, h'.arenaSpace t + (h'.zones t).sizeRemaining.toNat)) := by
  funext o
  cases o with
  | block p => rfl
  | arena u =>
    by_cases hu : u = t
    · subst hu
      rw [range_arena hc]
      simp
    · simp [range, ho.zones u hu, hu]
  | zone u =>
    by_cases hu : u = t
    · subst hu
      rw [range_zone hc]
      simp
    · by_cases hcu : (h.zones u).currentArena = 0
      · simp [range, ho.zones u hu, hu, hcu]
      · simp [range, ho.zones u hu, hu, hcu, ho.space u hu hcu]

theorem Others.room (ho : Others h h' t) (hi : HeapOk h B bins)
    (ht : h'.arenaSpace t % 16 = 0 ∧ 0 ≤ (h'.zones t).sizeRemaining) (hc : (h'.zones u).currentArena ≠ 0) :
    h'.arenaSpace u % 16 = 0 ∧ 0 ≤ (h'.zones u).sizeRemaining := by
  by_cases hu : u = t
  · rw [hu]
    exact ht
  · rw [ho.zones u hu] at hc ⊢
    rw [ho.space u hu hc]
    exact hi.zone hc

/-- An arena is put behind the others that the thread has had. -/
theorem HeapOk.linkArena (hi : HeapOk h B bins) (hc : (h.zones t).currentArena ≠ 0) (past : Nat) :
    HeapOk { h with mem := h.mem.write (h.zones t).currentArena 8 past } B bins ∧
      Kept h { h with mem := h.mem.write (h.zones t).currentArena 8 past } B := by
  have hout : ∀ x, x < (h.zones t).currentArena ∨ (h.zones t).currentArena + 8 ≤ x →
      h.mem.write (h.zones t).currentArena 8 past x = h.mem x := fun x hx => Mem.write_of_not_mem hx
  have hother {o x y} (ho : o ≠ .arena t) (hr : h.range B o = some (x, y)) :
      h.mem.Agree (h.mem.write (h.zones t).currentArena 8 past) x y :=
    hi.elsewhere (range_arena hc) (fun z hz => (hout z (by omega)).symm) ho hr
  have hkept : Kept h { h with mem := h.mem.write (h.zones t).currentArena 8 past } B := fun q b hq =>
    hother (fun hne => by cases hne) (range_block hq)
  refine ⟨hi.congr (fun u hu => ?_) (fun q b hq => ?_) fun a d q hq => ?_, hkept⟩
  · by_cases hut : u = t
    · subst hut
      exact fun x hx _ => (hout x (.inr hx)).symm
    · exact (hother (fun hne => hut (Owner.arena.inj hne)) (range_arena hu)).mono (by omega) (by omega)
  · exact (hkept q b hq).mono (by omega) (by have := (hi.block hq).size.bounds; omega)
  · have hBq := hi.lists.bins hq
    have hsize := (hi.block hBq).size.bounds
    exact (hkept q _ hBq).mono (by omega) (by dsimp only at hsize ⊢; omega)

/-- A new arena begins where the pages of the heap have ended. -/
theorem HeapOk.newArena (hi : HeapOk h B bins) {s : SourceInternalHeap} (hs : Paged s) (hstart : s.start = h.source.start)
    {allocSize : Nat} (hpos : h.source.position + 16 + allocSize ≤ s.position) (past t : Nat) {h' : InternalHeap}
    (hh : h' = { h with
      mem := (h.mem.write (h.source.position + 8) 8 (h.source.position + XPHeap.arenaSize)).write h.source.position 8 0
      source := s
      zones := Function.update h.zones t ⟨allocSize, h.source.position, past⟩ }) :
    HeapOk h' B bins ∧ Kept h h' B ∧ h'.zones t = ⟨allocSize, h.source.position, past⟩ := by
  have hbelow : ∀ x, x < h.source.position → h'.mem x = h.mem x := by
    intro x hx
    rw [hh]
    exact (Mem.write_of_lt hx).trans (Mem.write_of_lt (by omega))
  have hagree {o x y} (hr : h.range B o = some (x, y)) : h.mem.Agree h'.mem x y := by
    have hhi := (hi.apart.within hr).2.2
    exact fun z _ hz => (hbelow z (by omega)).symm
  have htotal := hs.total
  have hlimit := hs.limit
  have hlow := hi.source.start
  have hle := hi.source.le
  have hpage := hi.source.page
  simp only [INTERNAL_HEAP_BASE, PageSize] at hlow hpage
  have hself : h'.zones t = ⟨allocSize, h.source.position, past⟩ := by rw [hh]; exact Function.update_self ..
  have hothers : Others h h' t := .of_agree (fun u hu => by rw [hh]; exact Function.update_of_ne hu ..) fun u _ hc => hagree (range_arena hc)
  have hspace : h'.arenaSpace t = h.source.position + 16 := by
    have hfirst : h'.mem.Agree (h.mem.write (h.source.position + 8) 8 (h.source.position + 16)) (h.source.position + 8)
        (h.source.position + 8 + 8) := by
      intro x hx _
      rw [hh]
      exact Mem.write_of_ge hx
    rw [arenaSpace, hself, Mem.read_congr hfirst, Mem.read_write_of_lt _ _ (by omega)]
  have hranges := hothers.ranges (B := B) (by rw [hself]; dsimp only; omega)
  rw [hspace, hself] at hranges
  dsimp only [Int.toNat_natCast] at hranges
  have hsource : h'.source = s := by rw [hh]
  refine ⟨⟨hsource ▸ hs, ?_, hothers.room hi ?_, fun {p b} hB => ?_, hi.lists, fun a d => ?_⟩, fun p b hB => hagree (range_block hB), hself⟩
  · rw [hranges, hsource, hstart]
    have harena := hi.apart.push (t := .arena t) hle (le_refl _) (Nat.le_add_right h.source.position 16)
    exact (harena.push (t := .zone t) (by omega) (le_refl _) (Nat.le_add_right _ allocSize)).mono hpos
  · rw [hspace, hself]
    exact ⟨by omega, Int.natCast_nonneg _⟩
  · exact hi.headed_of_agree hB (hagree (range_block hB))
  · rw [show h'.heads = h.heads by rw [hh]]
    exact hi.chain_of_agree (fun q c hq => hagree (range_block hq)) a d

theorem HeapOk.moreArena (hi : HeapOk h B bins) (hsz : sz ≤ 2 ^ 32) :
    h.Exhausted t sz ∧ h.moreArena t sz = none ∨
      ¬ h.Exhausted t sz ∧ ∃ h', h.moreArena t sz = some h' ∧ HeapOk h' B bins ∧ Kept h h' B ∧
        (h'.zones t).currentArena ≠ 0 ∧ sz ≤ (h'.zones t).sizeRemaining := by
  rw [InternalHeap.moreArena]
  dsimp only
  by_cases hroom : (h.zones t).currentArena = 0 ∨ (h.zones t).sizeRemaining < sz
  · rw [if_pos hroom]
    have hmax : (if INTERNAL_HEAP_CHUNK < sz then sz else INTERNAL_HEAP_CHUNK) = max INTERNAL_HEAP_CHUNK sz := by
      split <;> omega
    rw [hmax]
    have hchunk : max INTERNAL_HEAP_CHUNK sz + XPHeap.arenaSize ≤ 2 ^ 33 := by
      simp only [INTERNAL_HEAP_CHUNK, XPHeap.arenaSize]
      omega
    rcases hi.source.malloc hchunk with ⟨hlt, hnone⟩ | ⟨hge, s, hsome, hs, hstart, hpos⟩
    · exact .inl ⟨⟨hroom, hlt⟩, by rw [hnone]; rfl⟩
    · have hlow := hi.source.start
      have hle := hi.source.le
      simp only [INTERNAL_HEAP_BASE] at hlow
      have hpages := SourceInternalHeap.le_pages (max INTERNAL_HEAP_CHUNK sz + XPHeap.arenaSize)
      have hpos' : h.source.position + 16 + max INTERNAL_HEAP_CHUNK sz ≤ s.position := by
        simp only [INTERNAL_HEAP_CHUNK, XPHeap.arenaSize] at hpages hpos ⊢
        omega
      refine .inr ⟨fun hex => absurd hex.2 (not_lt.mpr hge), ?_⟩
      rw [hsome, Option.bind_some]
      dsimp only
      rw [if_pos (by omega)]
      have hgoes : h.source.position ≠ 0 ∧ (sz : Int) ≤ (max INTERNAL_HEAP_CHUNK sz : Nat) := by omega
      by_cases hc : (h.zones t).currentArena = 0
      · rw [if_neg (not_not.mpr hc)]
        obtain ⟨hok, hkept, hz⟩ := hi.newArena hs hstart hpos' (h.zones t).pastArenas t rfl
        exact ⟨_, rfl, hok, hkept, by rw [hz]; exact hgoes.1, by rw [hz]; exact hgoes.2⟩
      · rw [if_pos hc]
        obtain ⟨hi', hlink⟩ := hi.linkArena hc (h.zones t).pastArenas
        obtain ⟨hok, hkept, hz⟩ := hi'.newArena hs hstart hpos' (h.zones t).currentArena t rfl
        exact ⟨_, rfl, hok, fun p b hB => (hlink p b hB).trans (hkept p b hB), by rw [hz]; exact hgoes.1, by rw [hz]; exact hgoes.2⟩
  · rw [if_neg hroom]
    exact .inr ⟨fun hex => hroom hex.1, h, rfl, hi, fun _ _ _ => .refl _ _ _, fun hc => hroom (.inl hc), not_lt.mp fun hlt => hroom (.inr hlt)⟩

end

/-! ### Blocks -/

/-- The pointer that a call returns is that of a block of the runtime now, which is large enough; the other blocks are as they were. -/
structure Obtained (h h' : InternalHeap) (B : Layout) (bins : Nat → Nat → List Nat) (sz p : Nat) (b : Block) : Prop where
  size : sz ≤ b.size
  use : b.use = .live
  before : ∀ c, B p = some c → c.use ≠ .live
  heap : HeapOk h' (Function.update B p (some b)) bins
  kept : ∀ q c, q ≠ p → B q = some c → h.mem.Agree h'.mem (q - 16) (q + c.size + 16)

section
variable {t size : Nat}

theorem align_block (hs : BlockSize size) : align (size + ObjectHeader.headerSize + 2 * SENTINEL_SIZE) = size + 32 := by
  obtain ⟨-, hmod, -⟩ := hs.bounds
  simp only [align, MallocInfo.Alignment, ObjectHeader.headerSize, SENTINEL_SIZE, WORD_SIZE]
  omega

theorem getSize_construct (m : Mem) {a : Nat} (hs : size < 2 ^ 32) : ObjectHeader.getSize (ObjectHeader.construct m a size) (a + 16) = size := by
  have hfirst : (ObjectHeader.construct m a size).Agree (m.write a 4 size) a (a + 4) := fun x _ hx =>
    (Mem.write_of_lt (by omega)).trans (Mem.write_of_lt (by omega))
  rw [ObjectHeader.getSize, Nat.add_sub_cancel, Mem.read_congr hfirst, Mem.read_write_of_lt _ _ (by omega)]

/-- The front of the arena becomes a block. -/
theorem HeapOk.cut (hi : HeapOk h B bins) (hs : BlockSize size) (hc : (h.zones t).currentArena ≠ 0)
    (hroom : ((size + 32 : Nat) : Int) ≤ (h.zones t).sizeRemaining) {h' : InternalHeap}
    (hh : h' = { h with
      mem := ObjectHeader.construct (h.mem.write ((h.zones t).currentArena + 8) 8 (h.arenaSpace t + (size + 32))) (h.arenaSpace t) size
      zones := Function.update h.zones t
        { h.zones t with sizeRemaining := (h.zones t).sizeRemaining - ((size + 32 : Nat) : Int) } }) :
    Obtained h h' B bins size (h.arenaSpace t + 16) ⟨size, .live⟩ := by
  obtain ⟨h16, hmod, hmax⟩ := hs.bounds
  obtain ⟨hal, -⟩ := hi.zone hc
  obtain ⟨hlow, hlow', hhigh, hlimit⟩ := hi.arena_bounds hc
  obtain ⟨a, ha⟩ : ∃ a, h.arenaSpace t = a := ⟨_, rfl⟩
  obtain ⟨k, hk⟩ : ∃ k : Nat, (h.zones t).sizeRemaining = k := ⟨(h.zones t).sizeRemaining.toNat, by omega⟩
  have hkn : (h.zones t).sizeRemaining.toNat = k := by omega
  have hrange : h.range B (.zone t) = some (a, a + k) := by rw [range_zone hc, ha, hkn]
  rw [ha] at hh hal hlow' hhigh ⊢
  -- The header is written to the space of the arena, and the place of what is left of it to its data.
  have hout : ∀ x, (x < a ∨ a + 16 ≤ x) → (x < (h.zones t).currentArena + 8 ∨ (h.zones t).currentArena + 16 ≤ x) → h'.mem x = h.mem x := by
    intro x h₁ h₂
    rw [hh]
    dsimp only [ObjectHeader.construct]
    rw [Mem.write_of_not_mem (by omega), Mem.write_of_not_mem (by omega), Mem.write_of_not_mem (by omega), Mem.write_of_not_mem (by omega)]
  have happart := hi.apart.apart (fun hne => by cases hne) (range_arena hc) hrange
  have hother {o x y} (h₁ : o ≠ .arena t) (h₂ : o ≠ .zone t) (hr : h.range B o = some (x, y)) : h.mem.Agree h'.mem x y := by
    intro z hx hy
    refine (hout z ?_ ?_).symm
    · rcases hi.apart.apart h₂ hr hrange with hle | hle <;> omega
    · rcases hi.apart.apart h₁ hr (range_arena hc) with hle | hle <;> omega
  have hblock {q c} (hq : B q = some c) : h.mem.Agree h'.mem (q - 16) (q + c.size + 16) :=
    hother (fun hne => by cases hne) (fun hne => by cases hne) (range_block hq)
  have hleft : (h.zones t).sizeRemaining - ((size + 32 : Nat) : Int) = ((k - (size + 32) : Nat) : Int) := by omega
  have hself : h'.zones t = { h.zones t with sizeRemaining := ((k - (size + 32) : Nat) : Int) } := by
    rw [hh, hleft]
    exact Function.update_self ..
  have hothers : Others h h' t := .of_agree (fun u hu => by rw [hh]; exact Function.update_of_ne hu ..) fun u hu hcu =>
    hother (fun hne => hu (Owner.arena.inj hne)) (fun hne => by cases hne) (range_arena hcu)
  have hspace : h'.arenaSpace t = a + (size + 32) := by
    have hdata : h'.mem.Agree (h.mem.write ((h.zones t).currentArena + 8) 8 (a + (size + 32))) ((h.zones t).currentArena + 8)
        ((h.zones t).currentArena + 8 + 8) := by
      intro x h₁ h₂
      rw [hh]
      dsimp only [ObjectHeader.construct]
      rw [Mem.write_of_not_mem (by omega), Mem.write_of_not_mem (by omega), Mem.write_of_not_mem (by omega)]
    rw [arenaSpace, hself]
    dsimp only
    rw [Mem.read_congr hdata, Mem.read_write_of_lt _ _ (by omega)]
  -- No block has been there.
  have hnone : B (a + 16) = none := by
    by_contra hne
    obtain ⟨c, hB⟩ := Option.ne_none_iff_exists'.mp hne
    have hcsize := (hi.block hB).size.bounds
    rcases hi.apart.apart (fun hne => by cases hne) (range_block hB) hrange with hle | hle <;> omega
  have hcut : h'.range (Function.update B (a + 16) (some ⟨size, .live⟩)) = Function.update (Function.update (h.range B) (.zone t)
      (some (a + (size + 32), a + k))) (.block (a + 16)) (some (a, a + (size + 32))) := by
    have hranges := hothers.ranges (B := B) (by rw [hself]; exact hc)
    rw [hspace, hself] at hranges
    dsimp only [Int.toNat_natCast] at hranges
    rw [← range_arena (B := B) hc, Function.update_eq_self] at hranges
    rw [range_update, hranges, show a + (size + 32) + (k - (size + 32)) = a + k by omega, Nat.add_sub_cancel,
      show a + 16 + size + 16 = a + (size + 32) by omega]
  have hsource : h'.source = h.source := by rw [hh]
  refine ⟨le_refl _, rfl, fun c hB => ?_, ⟨hsource ▸ hi.source, ?_, hothers.room hi ?_, fun {q c} hq => ?_, ?_, fun u d => ?_⟩,
    fun q c _ hq => hblock hq⟩
  · rw [hnone] at hB
    cases hB
  · rw [hcut, hsource]
    exact hi.apart.cut hrange (range_block_none hnone) (by omega) (by omega)
  · rw [hspace, hself]
    exact ⟨by omega, Int.natCast_nonneg _⟩
  · by_cases hqa : q = a + 16
    · subst hqa
      rw [Function.update_self] at hq
      cases hq
      refine ⟨by omega, hs, ?_⟩
      rw [hh]
      exact getSize_construct _ (by omega)
    · rw [Function.update_of_ne hqa] at hq
      exact hi.headed_of_agree hq (hblock hq)
  · exact hi.lists.assign (hi.lists.detached (.inl hnone)) _
  · rw [show h'.heads = h.heads by rw [hh]]
    exact hi.chain_of_agree (fun q c hq => hblock hq) u d

theorem HeapOk.adaptMalloc (hi : HeapOk h B bins) (hs : BlockSize size) :
    h.Exhausted t (size + 32) ∧ h.adaptMalloc t size = none ∨
      ¬ h.Exhausted t (size + 32) ∧
        ∃ p h', h.adaptMalloc t size = some (p, h') ∧ Obtained h h' B bins size p ⟨size, .live⟩ := by
  obtain ⟨h16, hmod, hmax⟩ := hs.bounds
  rw [InternalHeap.adaptMalloc, zoneMalloc, align_block hs]
  dsimp only
  have hblock : size + 32 ≤ 2 ^ 32 := by omega
  rcases hi.moreArena (t := t) hblock with ⟨hex, hnone⟩ | ⟨hex, h₁, hsome, hi₁, hkept, hc, hroom⟩
  · exact .inl ⟨hex, by rw [hnone]; rfl⟩
  · have hlow := (hi₁.arena_bounds hc).2.1
    have hal := (hi₁.zone hc).1
    have hgood : h₁.mem.read ((h₁.zones t).currentArena + 8) 8 ≠ 0 ∧
        h₁.mem.read ((h₁.zones t).currentArena + 8) 8 % MallocInfo.Alignment = 0 := ⟨by rw [arenaSpace] at hlow; omega, hal⟩
    obtain ⟨hsize, huse, hbefore, hheap, hkept'⟩ := hi₁.cut hs hc hroom rfl
    refine .inr ⟨hex, h₁.arenaSpace t + 16, _, ?_, hsize, huse, hbefore, hheap, fun q c hq hB => (hkept q c hB).trans (hkept' q c hq hB)⟩
    rw [hsome, Option.bind_some, if_pos hgood]
    rfl

theorem HeapOk.segMalloc (hi : HeapOk h B bins) (h₁ : 16 ≤ sz) (h₂ : sz ≤ 2 ^ 31) :
    h.heads t (size2Class sz) = 0 ∧ h.Exhausted t (class2Size (size2Class sz) + 32) ∧ h.segMalloc t sz = none ∨
      ¬ (h.heads t (size2Class sz) = 0 ∧ h.Exhausted t (class2Size (size2Class sz) + 32)) ∧
        ∃ p h' bins' b, h.segMalloc t sz = some (p, h') ∧ Obtained h h' B bins' sz p b := by
  obtain ⟨hc₁, hc₂, hle⟩ := Kingsley.size2Class_spec h₁ h₂
  have hs : BlockSize (class2Size (size2Class sz)) := ⟨_, hc₁, hc₂, rfl⟩
  have hmax : class2Size (size2Class sz) ≤ XPHeap.maxObjectSize := hs.bounds.2.2
  rw [InternalHeap.segMalloc]
  dsimp only
  rw [if_neg (not_lt.mpr hle), if_pos hmax]
  by_cases hh : h.heads t (size2Class sz) = 0
  · have hget : h.dictMalloc t (size2Class sz) = some (0, h) := by
      rw [InternalHeap.dictMalloc, get, if_pos hh]
      rfl
    rw [hget, Option.bind_some]
    dsimp only
    rw [if_pos rfl]
    rcases hi.adaptMalloc (t := t) hs with ⟨hex, hnone⟩ | ⟨hex, p, h', hsome, hsize, huse, hbefore, hheap, hkept⟩
    · exact .inl ⟨hh, hex, hnone⟩
    · exact .inr ⟨fun hboth => hex hboth.2, p, h', bins, _, hsome, hle.trans hsize, huse, hbefore, hheap, hkept⟩
  · obtain ⟨h', bins', hsome, hmem, hB, hi'⟩ := hi.dictMalloc hh
    refine .inr ⟨fun hboth => hh hboth.1, h.heads t (size2Class sz), h', bins', _, ?_, hle, rfl, fun c hc => ?_, hi',
      fun q c _ _ => hmem ▸ .refl _ _ _⟩
    · rw [hsome, Option.bind_some]
      dsimp only
      rw [if_neg hh]
    · rw [hB, Option.some.injEq] at hc
      rw [← hc]
      exact fun huse => by cases huse

/-- The size class of a request. -/
def sizeClass (sz : Nat) : Nat := size2Class (align (if sz < MinSize then MinSize else sz))

/-- The size is above the limit of the heap, or the thread has no free block of the size class and there is no memory for a new one. -/
def NoRoom (h : InternalHeap) (tid sz : Nat) : Prop :=
  MaxSize < sz ∨ h.heads tid (sizeClass sz) = 0 ∧ h.Exhausted tid (class2Size (sizeClass sz) + 32)

theorem HeapOk.malloc (hi : HeapOk h B bins) (hsz : sz ≠ 0) :
    h.NoRoom t sz ∧ h.malloc t sz = none ∨
      ¬ h.NoRoom t sz ∧ ∃ p h' bins' b, h.malloc t sz = some (p, h') ∧ Obtained h h' B bins' sz p b := by
  rw [InternalHeap.malloc, if_neg hsz]
  by_cases hmax : sz > MaxSize
  · rw [if_pos hmax]
    exact .inl ⟨.inl hmax, rfl⟩
  · rw [if_neg hmax]
    have hbounds : 16 ≤ align (if sz < MinSize then MinSize else sz) ∧ align (if sz < MinSize then MinSize else sz) ≤ 2 ^ 31 ∧
        sz ≤ align (if sz < MinSize then MinSize else sz) := by
      simp only [align, MaxSize, MinSize, MallocInfo.Alignment] at hmax ⊢
      split <;> omega
    obtain ⟨h₁, h₂, h₃⟩ := hbounds
    rcases hi.segMalloc (t := t) h₁ h₂ with ⟨hh, hex, hnone⟩ | ⟨hroom, p, h', bins', b, hsome, hsize, huse, hbefore, hheap, hkept⟩
    · exact .inl ⟨.inr ⟨hh, hex⟩, by rw [hnone]; rfl⟩
    · have hB : Function.update B p (some b) p = some b := Function.update_self ..
      have hlow := (hheap.block_bounds hB).1
      have hal := (hheap.block hB).aligned
      refine .inr ⟨fun hno => ?_, p, h', bins', b, ?_, h₃.trans hsize, huse, hbefore, hheap, hkept⟩
      · rcases hno with hno | hno
        · exact hmax hno
        · exact hroom hno
      · rw [hsome, Option.bind_some]
        exact if_pos ⟨hal, by omega⟩

theorem HeapOk.free (hi : HeapOk h B bins) (hB : B p = some b) (hlive : b.use = .live) (ht : t < NUM_HEAPS) :
    ∃ h' bins', h.free t p = some h' ∧ (∀ x, x < p ∨ p + b.size ≤ x → h'.mem x = h.mem x) ∧
      HeapOk h' (Function.update B p (some ⟨b.size, .free t⟩)) bins' := by
  obtain ⟨hal, ⟨c, hc₁, hc₂, hc⟩, -⟩ := hi.block hB
  have hbounds := (hi.block hB).size.bounds
  have hlow := (hi.block_bounds hB).1
  obtain ⟨size, use⟩ := b
  dsimp only at hc hlive hbounds
  subst hc hlive
  obtain ⟨h', bins', hsome, hout, hheap⟩ := hi.dictFree hB t
  refine ⟨h', bins', ?_, fun x hx => hout x (by dsimp only at hx; omega), hheap⟩
  have hmax : ¬ class2Size c > XPHeap.maxObjectSize := not_lt.mpr hbounds.2.2
  rw [InternalHeap.free, if_pos ht, if_pos (by simp only [UNIQUE_VALUE]; omega), segFree, hi.getSize hB, Option.bind_some,
    if_neg hmax]
  dsimp only
  rw [Kingsley.size2Class_class2Size, if_pos (by simp only [NUMBINS]; omega), XPHeap.lowerClass_class2Size, hsome]

end

/-! ### Runs -/

namespace State

variable {s s' : State} {act : Act} {acts : List Act} {size offset : Nat}

/-- Each object is in a block that the heap has handed out. -/
structure Ok (s : State) (B : Layout) (bins : Nat → Nat → List Nat) : Prop where
  heap : HeapOk s.heap B bins
  objects : ∀ {p size}, s.objects p = some size → ∃ b, B p = some b ∧ b.use = .live ∧ size ≤ b.size

theorem init_ok (h : system.init s) : ∃ B bins, s.Ok B bins := by
  obtain ⟨mem, metasize, hpage, hmeta, rfl⟩ := h
  refine ⟨fun _ => none, fun _ _ => [], ?_, fun hp => by cases hp⟩
  refine
    { source := ⟨rfl, Nat.le_add_right _ _, le_refl _, ?_, rfl, ?_⟩
      apart := ⟨fun {o a c} ho => ?_, fun {o o' a c x y} _ ho => ?_⟩
      zone := fun hc => absurd rfl hc
      block := fun hB => by cases hB
      lists := ⟨fun hp => (List.not_mem_nil hp).elim, fun _ _ => .nil, fun ho => (List.not_mem_nil ho).elim, fun _ => .nil,
        fun hp => (List.not_mem_nil hp).elim, .nil⟩
      chains := fun _ _ => .nil }
  · change (INTERNAL_HEAP_BASE + metasize) % PageSize = 0
    simp only [INTERNAL_HEAP_BASE, PageSize] at hpage ⊢
    omega
  · change INTERNAL_HEAP_BASE + metasize + HashMap.INTERNAL_HEAP_SIZE < 2 ^ 47
    simp only [INTERNAL_HEAP_BASE, HashMap.INTERNAL_HEAP_SIZE]
    omega
  all_goals cases o <;> simp [range, initialized] at ho

/-- The memory of an object, but for a byte that is stored to, is kept until the object is freed. -/
def Keeps (s s' : State) (act : Act) : Prop :=
  ∀ p size, s.objects p = some size → (∀ t, act ≠ .free t p) →
    s'.objects p = some size ∧
      ∀ offset, offset < size → (∀ v, act ≠ .store p offset v) → s'.heap.mem (p + offset) = s.heap.mem (p + offset)

theorem Ok.malloc {B : Layout} {bins : Nat → Nat → List Nat} (hi : s.Ok B bins) {t sz : Nat} (hstep : s.exec (.malloc t sz) = some s') :
    (∃ B' bins', s'.Ok B' bins') ∧ s.Keeps s' (.malloc t sz) := by
  rw [exec] at hstep
  split at hstep
  · by_cases hsz : sz = 0
    · rw [InternalHeap.malloc, if_pos hsz, Option.map_some, Option.some.injEq] at hstep
      dsimp only at hstep
      rw [if_pos hsz] at hstep
      subst hstep
      exact ⟨⟨B, bins, hi⟩, fun p size hp _ => ⟨hp, fun _ _ _ => rfl⟩⟩
    · rcases hi.heap.malloc (t := t) hsz with ⟨-, hnone⟩ | ⟨-, p, h', bins', b, hsome, hsize, huse, hbefore, hheap, hkept⟩
      · rw [hnone] at hstep
        cases hstep
      · rw [hsome, Option.map_some, Option.some.injEq] at hstep
        dsimp only at hstep
        rw [if_neg hsz] at hstep
        subst hstep
        refine ⟨⟨Function.update B p (some b), bins', hheap, fun {q size} hq => ?_⟩, fun q size hq _ => ?_⟩
        · dsimp only at hq
          by_cases hqp : q = p
          · subst hqp
            rw [Function.update_self] at hq
            cases hq
            exact ⟨b, Function.update_self .., huse, hsize⟩
          · rw [Function.update_of_ne hqp] at hq ⊢
            exact hi.objects hq
        · obtain ⟨c, hB, hlive, hle⟩ := hi.objects hq
          have hqp : q ≠ p := fun hqp => hbefore c (hqp ▸ hB) hlive
          refine ⟨(Function.update_of_ne hqp ..).trans hq, fun offset ho _ => ?_⟩
          have hqlow := (hi.heap.block_bounds hB).1
          exact (hkept q c hqp hB _ (by omega) (by omega)).symm
  · cases hstep

theorem Ok.free {B : Layout} {bins : Nat → Nat → List Nat} (hi : s.Ok B bins) {t p : Nat} (hstep : s.exec (.free t p) = some s') :
    (∃ B' bins', s'.Ok B' bins') ∧ s.Keeps s' (.free t p) := by
  have hnull : ∀ {b}, B p = some b → p ≠ UNIQUE_VALUE ∧ p ≠ 0 := fun {b} hB => by
    have hal := (hi.heap.block hB).aligned
    have hlow := (hi.heap.block_bounds hB).1
    simp only [UNIQUE_VALUE]
    omega
  rw [exec] at hstep
  split at hstep
  · next hcan =>
    by_cases hobj : ∃ size, s.objects p = some size
    · obtain ⟨size, hobj⟩ := hobj
      obtain ⟨b, hB, hlive, hle⟩ := hi.objects hobj
      by_cases ht : t < NUM_HEAPS
      · obtain ⟨h', bins', hsome, hout, hheap⟩ := hi.heap.free hB hlive ht
        rw [hsome, Option.map_some, Option.some.injEq] at hstep
        subst hstep
        refine ⟨⟨_, bins', hheap, fun {q size'} hq => ?_⟩, fun q size' hq hne => ?_⟩
        · dsimp only at hq
          have hqp : q ≠ p := by
            rintro rfl
            rw [Function.update_self] at hq
            cases hq
          rw [Function.update_of_ne hqp] at hq ⊢
          exact hi.objects hq
        · have hqp : q ≠ p := fun hqp => hne t (hqp ▸ rfl)
          obtain ⟨c, hBq, -, hleq⟩ := hi.objects hq
          refine ⟨(Function.update_of_ne hqp ..).trans hq, fun offset ho _ => hout _ ?_⟩
          have hap := hi.heap.apart.apart (fun hne' => hqp (Owner.block.inj hne')) (range_block hBq) (range_block hB)
          have hqlow := (hi.heap.block_bounds hBq).1
          have hplow := (hi.heap.block_bounds hB).1
          omega
      · rw [InternalHeap.free, if_neg ht] at hstep
        cases hstep
    · have hnone : s.objects p = none := by
        by_contra hne
        exact hobj (Option.ne_none_iff_exists'.mp hne)
      have hsame : s' = s := by
        rw [InternalHeap.free] at hstep
        split at hstep
        · rw [if_neg] at hstep
          · rw [Option.map_some, Option.some.injEq, ← hnone, Function.update_eq_self] at hstep
            exact hstep.symm
          · rcases hcan with rfl | rfl | hsome
            · exact fun hne => hne.1 rfl
            · exact fun hne => hne.2 rfl
            · rw [hnone] at hsome
              cases hsome
        · cases hstep
      subst hsame
      exact ⟨⟨B, bins, hi⟩, fun q size hq _ => ⟨hq, fun _ _ _ => rfl⟩⟩
  · cases hstep

theorem Ok.store {B : Layout} {bins : Nat → Nat → List Nat} (hi : s.Ok B bins) {p offset : Nat} {v : UInt8}
    (hstep : s.exec (.store p offset v) = some s') : (∃ B' bins', s'.Ok B' bins') ∧ s.Keeps s' (.store p offset v) := by
  rw [exec] at hstep
  split at hstep
  · next hlt =>
    rw [Option.some.injEq] at hstep
    obtain ⟨size, hobj⟩ : ∃ size, s.objects p = some size := by
      by_contra hne
      rw [Option.eq_none_iff_forall_ne_some.mpr fun size hs => hne ⟨size, hs⟩] at hlt
      exact absurd hlt (Nat.not_lt_zero _)
    rw [hobj, Option.getD_some] at hlt
    obtain ⟨b, hB, hlive, hle⟩ := hi.objects hobj
    have hplow := (hi.heap.block_bounds hB).1
    have hset : ∀ x, x ≠ p + offset → s.heap.mem x = s.heap.mem.set (p + offset) v x := fun x hx => (Mem.set_of_ne hx).symm
    have hfree : ∀ t c, p ∉ bins t c := by
      intro t c hp
      have hBp := hi.heap.lists.bins hp
      rw [hB, Option.some.injEq] at hBp
      rw [hBp] at hlive
      cases hlive
    subst hstep
    refine ⟨⟨B, bins, hi.heap.writeBlock hB hfree fun x hx => hset x (by omega), hi.objects⟩, fun q size' hq _ =>
      ⟨hq, fun offset' ho hne => (hset _ ?_).symm⟩⟩
    · by_cases hqp : q = p
      · subst hqp
        have hoff : offset' ≠ offset := fun heq => hne v (heq ▸ rfl)
        omega
      · obtain ⟨c, hBq, -, hleq⟩ := hi.objects hq
        have hap := hi.heap.apart.apart (fun hne' => hqp (Owner.block.inj hne')) (range_block hBq) (range_block hB)
        have hqlow := (hi.heap.block_bounds hBq).1
        omega
  · cases hstep

theorem Ok.step {B : Layout} {bins : Nat → Nat → List Nat} (hi : s.Ok B bins) (hstep : system.step s act s') :
    (∃ B' bins', s'.Ok B' bins') ∧ s.Keeps s' act := by
  cases act with
  | malloc t sz => exact hi.malloc hstep
  | free t p => exact hi.free hstep
  | store p offset v => exact hi.store hstep

theorem reachable_ok (h : Reachable system s) : ∃ B bins, s.Ok B bins :=
  h.invariant (P := fun s => ∃ B bins, s.Ok B bins) (fun _ => init_ok) fun _ _ _ hs hstep => by
    obtain ⟨B, bins, hi⟩ := hs
    exact (hi.step hstep).1

def start : State := ⟨initialized (fun _ => 0) 4096, fun _ => none⟩

theorem start_init : system.init start := ⟨_, _, rfl, by decide, rfl⟩

/-- A thread has stored a byte into an object. -/
def stored : State := (([.malloc 0 100, .store 0x100000001020 3 7] : List Act).foldlM exec start).getD start

theorem stored_reachable : Reachable system stored := by
  have hrun : (([.malloc 0 100, .store 0x100000001020 3 7] : List Act).foldlM exec start).isSome = true := by decide +kernel
  obtain ⟨s, hs⟩ := Option.isSome_iff_exists.mp hrun
  rw [stored, hs]
  exact Reachable.of_foldlM (fun _ _ _ _ h => h) (.init start_init) hs

/-- Objects are aligned, inside of the heap, and apart from one another. -/
theorem objects_apart (h : Reachable system s) (hp : s.objects p = some sz) :
    p % MallocInfo.Alignment = 0 ∧ s.heap.source.start ≤ p ∧ p + sz ≤ s.heap.source.position ∧
      ∀ q size, q ≠ p → s.objects q = some size → p + sz ≤ q ∨ q + size ≤ p := by
  obtain ⟨B, bins, hi⟩ := reachable_ok h
  obtain ⟨b, hB, -, hle⟩ := hi.objects hp
  obtain ⟨hlow, -, hhigh⟩ := hi.heap.apart.within (range_block hB)
  refine ⟨(hi.heap.block hB).aligned, by omega, by omega, fun q size hqp hq => ?_⟩
  obtain ⟨c, hBq, -, hleq⟩ := hi.objects hq
  have hap := hi.heap.apart.apart (fun hne => hqp (Owner.block.inj hne)) (range_block hBq) (range_block hB)
  have hqlow := (hi.heap.block_bounds hBq).1
  have hplow := (hi.heap.block_bounds hB).1
  omega

/-- Two threads have an object each; the data of the heap take one page. -/
theorem objects_apart_two : ∃ s, Reachable system s ∧ s.objects 0x100000001020 = some 100 ∧ s.objects 0x100000102020 = some 20 ∧
    (0x100000001020 + 100 ≤ 0x100000102020 ∨ 0x100000102020 + 20 ≤ 0x100000001020) := by
  have hrun : (([.malloc 0 100, .malloc 1 20] : List Act).foldlM exec start).map
      (fun s => (s.objects 0x100000001020, s.objects 0x100000102020)) = some (some 100, some 20) := by
    decide +kernel
  obtain ⟨s, hs, hobjects⟩ := Option.map_eq_some_iff.mp hrun
  rw [Prod.mk.injEq] at hobjects
  have hreach : Reachable system s := Reachable.of_foldlM (fun _ _ _ _ h => h) (.init start_init) hs
  exact ⟨s, hreach, hobjects.1, hobjects.2, (objects_apart hreach hobjects.1).2.2.2 _ _ (by decide) hobjects.2⟩

/-- What is in an object stays there, whatever the threads do with the heap, until it is stored to or freed. -/
theorem contents_kept (h : Reachable system s) (hrun : Steps system s acts s') (hp : s.objects p = some size)
    (hfree : ∀ t, Act.free t p ∉ acts) (ho : offset < size) (hstore : ∀ v, Act.store p offset v ∉ acts) :
    s'.objects p = some size ∧ s'.heap.mem (p + offset) = s.heap.mem (p + offset) := by
  induction hrun with
  | nil => exact ⟨hp, rfl⟩
  | @cons s t u act acts hstep hrest ih =>
    obtain ⟨B, bins, hi⟩ := reachable_ok h
    obtain ⟨hkept, hbytes⟩ := (hi.step hstep).2 p size hp fun t heq => hfree t (heq ▸ List.mem_cons_self)
    have hbyte := hbytes offset ho fun v heq => hstore v (heq ▸ List.mem_cons_self)
    obtain ⟨hlast, hmem⟩ := ih (.step act h hstep) hkept (fun t hin => hfree t (List.mem_cons_of_mem _ hin))
      fun v hin => hstore v (List.mem_cons_of_mem _ hin)
    exact ⟨hlast, hmem.trans hbyte⟩

/-- The byte is read back after other calls, one of which takes the block that another thread has given back. -/
theorem contents_kept_reuse : ∃ s, Steps system stored [.malloc 1 50, .store 0x100000102020 3 9, .free 0 0x100000102020, .malloc 0 60] s ∧
    s.objects 0x100000102020 = some 60 ∧ s.heap.mem (0x100000001020 + 3) = 7 := by
  have hrun : (([.malloc 1 50, .store 0x100000102020 3 9, .free 0 0x100000102020, .malloc 0 60] : List Act).foldlM exec stored).map
      (fun s => s.objects 0x100000102020) = some (some 60) := by
    decide +kernel
  obtain ⟨s, hs, hobject⟩ := Option.map_eq_some_iff.mp hrun
  have hsteps : Steps system stored [.malloc 1 50, .store 0x100000102020 3 9, .free 0 0x100000102020, .malloc 0 60] s :=
    Steps.of_foldlM (fun _ _ _ h => h) hs
  have hobj : stored.objects 0x100000001020 = some 100 := by decide +kernel
  have hbyte : stored.heap.mem (0x100000001020 + 3) = 7 := by decide +kernel
  exact ⟨s, hsteps, hobject,
    (contents_kept stored_reachable hsteps hobj (by simp) (by decide) (by simp)).2.trans hbyte⟩

/-- A call for memory ends the process exactly if there is no room; giving an object back never does. -/
theorem calls_return (h : Reachable system s) (tid : Nat) :
    (∀ sz, sz ≠ 0 → (s.heap.malloc tid sz = none ↔ s.heap.NoRoom tid sz)) ∧
      (tid < NUM_HEAPS → ∀ p size, s.objects p = some size → ∃ heap, s.heap.free tid p = some heap) := by
  obtain ⟨B, bins, hi⟩ := reachable_ok h
  refine ⟨fun sz hsz => ?_, fun ht p size hp => ?_⟩
  · rcases hi.heap.malloc (t := tid) hsz with ⟨hno, hnone⟩ | ⟨hroom, p, h', bins', b, hsome, -⟩
    · exact iff_of_true hnone hno
    · exact iff_of_false (by rw [hsome]; exact Option.some_ne_none _) hroom
  · obtain ⟨b, hB, hlive, -⟩ := hi.objects hp
    obtain ⟨h', -, hsome, -⟩ := hi.heap.free hB hlive ht
    exact ⟨h', hsome⟩

/-- 2^31 bytes are too many, and 40 are not; an object that another thread has got is given back. -/
theorem calls_return_stored : stored.heap.malloc 1 (2 ^ 31) = none ∧ ¬ stored.heap.NoRoom 1 40 ∧
    ∃ heap, stored.heap.free 1 0x100000001020 = some heap := by
  obtain ⟨hmalloc, hfree⟩ := calls_return stored_reachable 1
  have hobj : stored.objects 0x100000001020 = some 100 := by decide +kernel
  have hsome : (stored.heap.malloc 1 40).isSome = true := by decide +kernel
  exact ⟨(hmalloc (2 ^ 31) (by decide)).mpr (.inl (by decide)), mt (hmalloc 40 (by decide)).mpr (Option.isSome_iff_ne_none.mp hsome),
    hfree (by decide) _ _ hobj⟩

end State

end InternalHeap

end DoubleTake
