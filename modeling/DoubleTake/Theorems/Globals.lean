import DoubleTake.Globals
import DoubleTake.Theorems.SelfMap
import DoubleTake.Theorems.Rollback

/-! From the text of `/proc/self/maps` to the memory after a rollback: which regions are copied, what is taken for the text of the
    library and of the application, and which bytes a rollback brings back. -/

namespace DoubleTake

open Transition IStream SelfMap

variable {lines : List MapsLine} {s : SelfMap} {g : XGlobals} {main : List Char}

/-! ### Lines -/

/-- The text of a process: the regions do not overlap, and the inodes fit an `int` (what comes behind one that does not is lost). -/
structure MapsText (lines : List MapsLine) : Prop where
  wellFormed : ∀ l ∈ lines, l.WellFormed
  disjoint : lines.Pairwise MapsLine.Disjoint
  fit : InodesFit lines

/-- The constructor of `selfmap` reads all of it. -/
theorem MapsText.parsed (h : MapsText lines) (hs : selfmap (lines.flatMap MapsLine.text) = some s) : Parsed lines s := by
  have hsome := selfmap_lines h.wellFormed
  have hall : (addAll ⟨[], []⟩ false (readLines lines)).mappings.Perm ((readLines lines).map entry ++ []) ∧
      (addAll ⟨[], []⟩ false (readLines lines)).mappings.Pairwise Before :=
    addAll_spec (fresh_readLines h.wellFormed h.disjoint) (fun e he => (List.not_mem_nil he).elim) .nil
  obtain ⟨hperm, hordered⟩ := hall
  rw [List.append_nil] at hperm
  rw [readLines_of_fit h.fit] at hsome hperm hordered
  cases hsome.symm.trans hs
  refine ⟨map_entry lines ▸ hperm, hordered.imp decide_eq_true_eq.mp, fun l hl => ?_⟩
  obtain ⟨ls, rfl⟩ := List.head?_eq_some_iff.mp hl
  exact addAll_main_exe

namespace MapsLine

/-- Private data of the executable, of a library or of the heap of the C library, but not of DoubleTake. -/
structure Global (main : List Char) (l : MapsLine) : Prop where
  readable : l.readable = true
  writable : l.writable = true
  data : l.executable = false
  isPrivate : l.copy_on_write = true
  named : l.path ≠ []
  file : l.path = main ∨ l.path = "[heap]".toList ∨ ".so".toList <:+: l.path
  foreign : ¬ "libdoubletake".toList <:+: l.path

theorem global_iff (l : MapsLine) : (l.mapping.isGlobals main && !l.mapping.names "libdoubletake") = true ↔ l.Global main := by
  have hlen : l.mapping.file.length > 0 ↔ l.path ≠ [] := List.length_pos_iff
  simp only [Mapping.isGlobals, Mapping.names, Bool.and_eq_true, Bool.or_eq_true, Bool.not_eq_true', decide_eq_true_eq,
    decide_eq_false_iff_not, beq_iff_eq, hlen, or_assoc]
  constructor
  · rintro ⟨⟨⟨⟨⟨hr, hw⟩, hx⟩, hp⟩, hn, hf⟩, hl⟩
    exact ⟨hr, hw, hx, hp, hn, hf, hl⟩
  · exact fun h => ⟨⟨⟨⟨⟨h.readable, h.writable⟩, h.data⟩, h.isPrivate⟩, h.named, h.file⟩, h.foreign⟩

instance (main : List Char) (l : MapsLine) : Decidable (l.Global main) := decidable_of_iff _ (global_iff l)

theorem contains_iff (l : MapsLine) (a : Nat) : l.interval.contains a = true ↔ l.interval.base ≤ a ∧ a < l.interval.limit := by
  rw [Interval.contains, Bool.and_eq_true, decide_eq_true_eq, decide_eq_true_eq]

end MapsLine

/-! A process with the code and the data of its executable, and the code of DoubleTake. -/

def processLine (base limit path : String) (writable executable : Bool) : MapsLine where
  base := base.toList
  limit := limit.toList
  readable := true
  writable := writable
  executable := executable
  copy_on_write := true
  offset := ['0']
  dev_major := ['8']
  dev_minor := ['1']
  inode := ['7']
  blanks := [' ']
  path := path.toList

def process : List MapsLine :=
  [processLine "400000" "40b000" "/bin/a" false true, processLine "60a000" "60b000" "/bin/a" true false,
    processLine "7f00000" "7f10000" "/lib/libdoubletake.so" false true]

theorem processLine_wellFormed {base limit path : String} (hb : Number 16 (2 ^ 64) base.toList) (hl : Number 16 (2 ^ 64) limit.toList)
    (hlt : value 16 base.toList < value 16 limit.toList) (hpath : path.toList.all (fun c => decide (c ≠ '\n' ∧ c ≠ ' ' ∧ c ≠ '\t')) = true)
    (w x : Bool) :
    (processLine base limit path w x).WellFormed where
  base := hb
  limit := hl
  nonempty := hlt
  offset := .of_all (by dsimp only [processLine]; decide)
  dev_major := .of_all (by dsimp only [processLine]; decide)
  dev_minor := .of_all (by dsimp only [processLine]; decide)
  inode := .of_all (by dsimp only [processLine]; decide)
  blanks := fun c hc => .inl (List.mem_singleton.mp hc)
  separated := fun _ h => by cases h
  oneLine := fun c hc => (of_decide_eq_true (List.all_eq_true.mp hpath c hc)).1
  path := fun c hc => (of_decide_eq_true (List.all_eq_true.mp hpath c (List.mem_of_head? hc))).2

theorem process_text : MapsText process where
  wellFormed := by
    refine List.forall_mem_cons.mpr ⟨?_, List.forall_mem_cons.mpr ⟨?_, List.forall_mem_singleton.mpr ?_⟩⟩
    · exact processLine_wellFormed (.of_all (by decide +kernel)) (.of_all (by decide +kernel)) (by decide +kernel) (by decide +kernel) _ _
    · exact processLine_wellFormed (.of_all (by decide +kernel)) (.of_all (by decide +kernel)) (by decide +kernel) (by decide +kernel) _ _
    · exact processLine_wellFormed (.of_all (by decide +kernel)) (.of_all (by decide +kernel)) (by decide +kernel) (by decide +kernel) _ _
  disjoint := by
    have hbefore : process.Pairwise fun a b => a.interval.limit ≤ b.interval.base := by decide +kernel
    refine hbefore.imp fun hle x hx => ?_
    have ha := ((MapsLine.contains_iff _ x).mp hx.1).2
    have hb := ((MapsLine.contains_iff _ x).mp hx.2).1
    exact absurd (ha.trans_le (hle.trans hb)) (lt_irrefl x)
  fit := by
    intro before l after heq
    have hall : ∀ l ∈ process, value 10 l.inode < 2 ^ 31 := by decide +kernel
    exact .inl (hall l (heq ▸ List.mem_append_right _ List.mem_cons_self))

/-! ### The global regions -/

/-- The regions of the global lines, in some order. -/
theorem globalRegions_perm (h : Parsed lines s) : s.getGlobalRegions.Perm
    ((lines.filter fun l => decide (l.Global s.main_exe)).map fun l => ⟨l.interval.base, l.interval.limit⟩) := by
  have hperm := (h.entries.filter fun e => e.2.isGlobals s.main_exe && !e.2.names "libdoubletake").map
    fun e : Interval × Mapping => (⟨e.2.base, e.2.limit⟩ : RegionInfo)
  rw [List.filter_map, List.map_map] at hperm
  have hglobal : ∀ l ∈ lines, ((fun e : Interval × Mapping => e.2.isGlobals s.main_exe && !e.2.names "libdoubletake") ∘
      fun l => (l.interval, l.mapping)) l = decide (l.Global s.main_exe) :=
    fun l _ => Bool.eq_iff_iff.mpr ((MapsLine.global_iff l).trans decide_eq_true_iff.symm)
  rw [List.filter_congr hglobal] at hperm
  exact hperm

theorem mem_globalRegions (h : Parsed lines s) (r : RegionInfo) : r ∈ s.getGlobalRegions ↔
    ∃ l ∈ lines, l.Global s.main_exe ∧ r = ⟨l.interval.base, l.interval.limit⟩ := by
  rw [(globalRegions_perm h).mem_iff, List.mem_map]
  simp only [List.mem_filter, decide_eq_true_eq, and_assoc, eq_comm (a := r)]

theorem initialized_eq (h : XGlobals.initialized s = some g) : g.gRegions = s.getGlobalRegions ∧
    g.maps = s.getGlobalRegions.map fun r => ⟨r.start, r.stop - r.start, none, fun _ => 0⟩ := by
  rw [XGlobals.initialized] at h
  split at h
  · cases h
    exact ⟨rfl, rfl⟩
  · cases h

/-- The arrays hold the regions exactly if there are not too many, and a `REQUIRE` fails for a region that is not of whole pages. -/
theorem initialized_isSome_iff (h : Parsed lines s) : (XGlobals.initialized s).isSome = true ↔
    (lines.filter fun l => decide (l.Global s.main_exe)).length ≤ NUM_GLOBALS ∧
      ∀ l ∈ lines, l.Global s.main_exe → (l.interval.limit - l.interval.base) % PageSize = 0 := by
  have hlen := (globalRegions_perm h).length_eq
  rw [List.length_map] at hlen
  rw [XGlobals.initialized, ← hlen]
  have hpages : (∀ r ∈ s.getGlobalRegions, (r.stop - r.start) % PageSize = 0) ↔
      ∀ l ∈ lines, l.Global s.main_exe → (l.interval.limit - l.interval.base) % PageSize = 0 := by
    constructor
    · exact fun hr l hl hglobal => hr ⟨l.interval.base, l.interval.limit⟩ ((mem_globalRegions h _).mpr ⟨l, hl, hglobal, rfl⟩)
    · intro hl r hr
      obtain ⟨l, hmem, hglobal, rfl⟩ := (mem_globalRegions h r).mp hr
      exact hl l hmem hglobal
  rw [← hpages]
  split
  · rename_i hand
    exact iff_of_true rfl hand
  · rename_i hnot
    exact iff_of_false Bool.false_ne_true hnot

namespace XMemory

variable {x₀ x y z : XMemory}

/-- The regions of the copies are the global lines. -/
theorem inGlobals_maps (hwf : ∀ l ∈ lines, l.WellFormed) (h : Parsed lines s) (hg : XGlobals.initialized s = some g)
    (hx : x.globals = g.maps) (a : Nat) : x.InGlobals a ↔ ∃ l ∈ lines, l.Global s.main_exe ∧ l.interval.contains a = true := by
  have hstop : ∀ l ∈ lines, l.interval.base + (l.interval.limit - l.interval.base) = l.interval.limit :=
    fun l hl => Nat.add_sub_cancel' (hwf l hl).nonempty.le
  rw [InGlobals, hx, (initialized_eq hg).2]
  constructor
  · rintro ⟨m, hm, hin⟩
    obtain ⟨r, hr, rfl⟩ := List.mem_map.mp hm
    obtain ⟨l, hl, hglobal, rfl⟩ := (mem_globalRegions h r).mp hr
    refine ⟨l, hl, hglobal, (l.contains_iff a).mpr ?_⟩
    dsimp only at hin
    rwa [hstop l hl] at hin
  · rintro ⟨l, hl, hglobal, hin⟩
    refine ⟨_, List.mem_map.mpr ⟨_, (mem_globalRegions h _).mpr ⟨l, hl, hglobal, rfl⟩, rfl⟩, ?_⟩
    dsimp only
    rw [hstop l hl]
    exact (l.contains_iff a).mp hin

/-- The check for leaks searches what a rollback brings back. -/
theorem inGlobals_iff_region (hg : XGlobals.initialized s = some g) (hx : x.globals = g.maps)
    (hle : ∀ r ∈ g.gRegions, r.start ≤ r.stop) (a : Nat) :
    x.InGlobals a ↔ ∃ i < g.getRegions, (g.getGlobalRegion i).1 ≤ a ∧ a < (g.getGlobalRegion i).2 := by
  obtain ⟨hregions, hmaps⟩ := initialized_eq hg
  rw [InGlobals, hx, hmaps, ← hregions]
  constructor
  · rintro ⟨m, hm, hin⟩
    obtain ⟨r, hr, rfl⟩ := List.mem_map.mp hm
    obtain ⟨i, hi, rfl⟩ := List.mem_iff_getElem.mp hr
    refine ⟨i, hi, ?_⟩
    rw [XGlobals.getGlobalRegion, List.getElem?_eq_getElem hi]
    dsimp only at hin ⊢
    rwa [Nat.add_sub_cancel' (hle _ hr)] at hin
  · rintro ⟨i, hi, hin⟩
    rw [XGlobals.getGlobalRegion, List.getElem?_eq_getElem hi] at hin
    refine ⟨_, List.mem_map_of_mem (List.getElem_mem hi), ?_⟩
    dsimp only at hin ⊢
    rwa [Nat.add_sub_cancel' (hle _ (List.getElem_mem hi))]

/-- Anything but the ends of an epoch. -/
def NoEnd (_ : XMemory) : Change → Prop
  | .epochBegin | .rollback => False
  | .chunk _ | .store _ _ | .metadata _ _ => True

/-- Only the copies change, and they change only where an epoch begins. -/
theorem apply_globals {c : Change} (hc : x.apply c = .ok y) : y.globals = x.globals ∨ y.globals = x.epochBegin.globals := by
  cases c with
  | chunk sz =>
    obtain ⟨_, _, _, rfl⟩ := chunk_ok hc
    exact .inl rfl
  | store | metadata =>
    cases hc
    exact .inl rfl
  | rollback =>
    obtain ⟨_, rfl⟩ := rollback_ok hc
    exact .inl rfl
  | epochBegin =>
    cases hc
    exact .inr rfl

theorem inGlobals_apply {c : Change} (hc : x.apply c = .ok y) (a : Nat) : y.InGlobals a ↔ x.InGlobals a := by
  rcases apply_globals hc with heq | heq
  · rw [InGlobals, heq, InGlobals]
  · rw [InGlobals, heq, ← InGlobals]
    exact inGlobals_epochBegin a

theorem apply_noEnd {c : Change} (hn : x.NoEnd c) (hc : x.apply c = .ok y) : y.globals = x.globals ∧ y.mapping = x.mapping := by
  cases c with
  | chunk sz =>
    obtain ⟨_, _, _, rfl⟩ := chunk_ok hc
    exact ⟨rfl, rfl⟩
  | store | metadata =>
    cases hc
    exact ⟨rfl, rfl⟩
  | epochBegin | rollback => exact hn.elim

/-- Bytes of no region stay. -/
theorem recoverGlobals_outside {gs : List XMapping} (hg : ∀ g ∈ gs, g.heapStart = none) (m : Mem) {a : Nat}
    (ha : ¬ ∃ g ∈ gs, g.userMemory ≤ a ∧ a < g.userMemory + g.startsize) : gs.foldl (fun m g => g.recoverMemory m 0) m a = m a := by
  induction gs generalizing m with
  | nil => rfl
  | cons g gs ih =>
    rw [List.foldl_cons, ih (fun k hk => hg k (List.mem_cons_of_mem _ hk)) _ fun hin => ?_]
    · have hout : ¬ (g.userMemory ≤ a ∧ a < g.userMemory + g.startsize) := fun hin => ha ⟨g, List.mem_cons_self, hin⟩
      rw [XMapping.recoverMemory, XMapping.copySize, hg g List.mem_cons_self, Mem.copy, if_neg hout]
    · obtain ⟨k, hk, hin⟩ := hin
      exact ha ⟨k, List.mem_cons_of_mem _ hk, hin⟩

/-- Where the process has the given text of `/proc/self/maps` and has set up its globals from it, a rollback gives the bytes of the
    global lines the values that they had when the epoch began, and leaves every other byte outside of the heap as it is, before
    the watchpoints are installed and after. -/
theorem rollback_restores_globals (h : MapsText lines) {first : MapsLine} (hfirst : lines.head? = some first)
    (hs : selfmap (lines.flatMap MapsLine.text) = some s) (hg : XGlobals.initialized s = some g) (hfresh : Fresh x₀)
    (hx : x₀.globals = g.maps) {past cs : List Change} (hrun : Steps changes x₀.epochBegin past x)
    (hepoch : Steps (changes.restrict NoEnd) x.epochBegin cs y) {a : Nat}
    (ha : ¬ (x.mapping.userMemory ≤ a ∧ a < y.heap.xheap.position)) :
    ((∃ l ∈ lines, l.Global first.path ∧ l.interval.contains a = true) → y.recover.mem a = x.mem a) ∧
      ((¬ ∃ l ∈ lines, l.Global first.path ∧ l.interval.contains a = true) → y.recover.mem a = y.mem a) ∧
        ∀ z, y.rollback = .ok z → z.mem a = y.recover.mem a := by
  have hparsed := h.parsed hs
  have hcopies : CopyInv x := copyInv (hrun.reachable (.init ⟨x₀, hfresh, rfl⟩))
  -- the regions are those of the beginning
  have hregions : ∀ a, x.InGlobals a ↔ x₀.InGlobals a :=
    hrun.invariant (P := fun z => ∀ a, z.InGlobals a ↔ x₀.InGlobals a) (fun _ _ _ hi hs a => (inGlobals_apply hs a).trans (hi a))
      inGlobals_epochBegin
  have hkept : y.globals = x.epochBegin.globals ∧ y.mapping = x.epochBegin.mapping :=
    hepoch.invariant (S := changes.restrict NoEnd) (P := fun z => z.globals = x.epochBegin.globals ∧ z.mapping = x.epochBegin.mapping)
      (fun _ _ _ hi hs => ⟨(apply_noEnd hs.1 hs.2).1.trans hi.1, (apply_noEnd hs.1 hs.2).2.trans hi.2⟩) ⟨rfl, rfl⟩
  have hmem : y.recover.mem a = (x.globals.map fun g => g.backup x.mem 0).foldl (fun m g => g.recoverMemory m 0) y.mem a := by
    change y.mapping.recoverMemory (y.globals.foldl (fun m g => g.recoverMemory m 0) y.mem) y.heap.xheap.position a = _
    rw [hkept.1, hkept.2]
    simp only [epochBegin, XMapping.recoverMemory, XMapping.backup, XMapping.copySize, hcopies.heapStart, Mem.copy]
    rw [if_neg (by omega)]
    rfl
  rw [← hparsed.main_exe first hfirst, ← inGlobals_maps h.wellFormed hparsed hg hx, ← hregions, hmem]
  refine ⟨(recoverGlobals hcopies.globals x.mem y.mem a).1, fun hout => ?_, fun z hz => ?_⟩
  rotate_left
  · obtain ⟨_, rfl⟩ := rollback_ok hz
    exact hmem
  have hbacked : ∀ g ∈ x.globals.map fun g => g.backup x.mem 0, g.heapStart = none := by
    intro g hg
    obtain ⟨g₀, hg₀, rfl⟩ := List.mem_map.mp hg
    exact hcopies.globals g₀ hg₀
  refine recoverGlobals_outside hbacked y.mem fun hin => hout ?_
  obtain ⟨g, hg, hin⟩ := hin
  obtain ⟨g₀, hg₀, rfl⟩ := List.mem_map.mp hg
  exact ⟨g₀, hg₀, hin⟩

/-- A byte of the data of the executable and one of no region are stored. The first comes back. -/
theorem rollback_restores_globals_process : ∃ x₀ y : XMemory, Steps (changes.restrict NoEnd) x₀.epochBegin.epochBegin
    [.store 0x60A004 1, .store 0x700000 1] y ∧ ∃ z, y.rollback = .ok z ∧ z.mem 0x60A004 = 0 ∧ z.mem 0x700000 = 1 := by
  have hset : ((selfmap (process.flatMap MapsLine.text)).bind XGlobals.initialized).isSome = true := by decide +kernel
  obtain ⟨g, hg⟩ := Option.isSome_iff_exists.mp hset
  obtain ⟨s, hs, hg⟩ := Option.bind_eq_some_iff.mp hg
  have hparsed := process_text.parsed hs
  have hstop : State.start.rt.memory.heapEnd = USER_HEAP_BASE + USER_HEAP_SIZE := by decide
  have hbase : 0x800000 ≤ State.start.rt.memory.mapping.userMemory := by decide
  have hfresh : Fresh { State.start.rt.memory with globals := g.maps } := by
    refine ⟨rfl, Nat.sub_le _ _, fun _ => rfl, rfl, rfl, hstop, fun m hm => ?_⟩
    rw [(initialized_eq hg).2] at hm
    obtain ⟨r, -, rfl⟩ := List.mem_map.mp hm
    rfl
  have hsteps : Steps (changes.restrict NoEnd) (XMemory.epochBegin { State.start.rt.memory with globals := g.maps }).epochBegin
      [.store 0x60A004 1, .store 0x700000 1] _ := .cons ⟨trivial, rfl⟩ (.cons ⟨trivial, rfl⟩ .nil)
  have hrestored := fun a ha => rollback_restores_globals (a := a) process_text rfl hs hg hfresh rfl .nil hsteps ha
  have hlow : ∀ a < 0x800000, ∀ {q : Prop}, ¬ (State.start.rt.memory.mapping.userMemory ≤ a ∧ q) :=
    fun a ha _ hin => absurd (hbase.trans hin.1) (not_le.mpr ha)
  have hdata : (processLine "60a000" "60b000" "/bin/a" true false).Global "/bin/a".toList ∧
      (processLine "60a000" "60b000" "/bin/a" true false).interval.contains 0x60A004 = true := by decide +kernel
  have hnone : ∀ l ∈ process, ¬ l.interval.contains 0x700000 = true := by decide +kernel
  obtain ⟨hexe, -, hroll⟩ := hrestored 0x60A004 (hlow _ (by decide))
  obtain ⟨-, hother, hroll'⟩ := hrestored 0x700000 (hlow _ (by decide))
  refine ⟨_, _, hsteps, _, rfl, ?_, ?_⟩
  · exact (hroll _ rfl).trans ((hexe ⟨_, List.mem_cons_of_mem _ List.mem_cons_self, hdata⟩).trans rfl)
  · refine (hroll' _ rfl).trans ((hother ?_).trans rfl)
    rintro ⟨l, hl, -, hin⟩
    exact hnone l hl hin

end XMemory

/-! ### The stack -/

theorem find?_stack (hp : Parsed lines s) {e : Interval × Mapping} (he : (s.mappings.find? fun e => e.2.isStack) = some e) :
    ∃ l ∈ lines, l.path = "[stack]".toList ∧ e = (l.interval, l.mapping) := by
  obtain ⟨l, hl, rfl⟩ := List.mem_map.mp (hp.entries.mem_iff.mp (List.mem_of_find?_eq_some he))
  have hstack := List.find?_some he
  exact ⟨l, hl, beq_iff_eq.mp hstack, rfl⟩

/-- The stack of the initial thread is the line that is called so; without one the process aborts. -/
theorem stackInformation_eq (h : MapsText lines) (hs : selfmap (lines.flatMap MapsLine.text) = some s) :
    (s.getStackInformation = none ↔ ∀ l ∈ lines, l.path ≠ "[stack]".toList) ∧
      ∀ l ∈ lines, l.path = "[stack]".toList → (∀ k ∈ lines, k.path = "[stack]".toList → k = l) →
        s.getStackInformation = some (l.interval.base, l.interval.limit) := by
  have hp := h.parsed hs
  have hnone : s.getStackInformation = none ↔ ∀ l ∈ lines, l.path ≠ "[stack]".toList := by
    rw [getStackInformation, Option.map_eq_none_iff, List.find?_eq_none]
    constructor
    · intro hall l hl hpath
      exact hall _ (hp.entries.mem_iff.mpr (List.mem_map_of_mem hl)) (beq_iff_eq.mpr hpath)
    · intro hall e he hstack
      obtain ⟨l, hl, rfl⟩ := List.mem_map.mp (hp.entries.mem_iff.mp he)
      exact hall l hl (beq_iff_eq.mp hstack)
  refine ⟨hnone, fun l hl hpath honly => ?_⟩
  cases hfind : s.mappings.find? fun e => e.2.isStack with
  | none => exact absurd hpath (hnone.mp (by rw [getStackInformation, hfind]; rfl) l hl)
  | some e =>
    obtain ⟨k, hk, hkpath, rfl⟩ := find?_stack hp hfind
    rw [getStackInformation, hfind, ← honly k hk hkpath]
    rfl

/-! ### The text regions -/

/-- The last one that counts. -/
theorem foldl_last {α β : Type} (p : α → Bool) (f : α → β) (b : β) (l : List α) :
    l.foldl (fun b e => if p e then f e else b) b = ((l.filter p).getLast?.map f).getD b := by
  induction l generalizing b with
  | nil => rfl
  | cons e l ih =>
    rw [List.foldl_cons, ih]
    by_cases he : p e = true
    · rw [if_pos he, List.filter_cons_of_pos he, List.getLast?_cons]
      cases (l.filter p).getLast? <;> rfl
    · rw [if_neg he, List.filter_cons_of_neg he]

namespace MapsLine

/-- Read-only code. -/
structure Code (l : MapsLine) : Prop where
  readable : l.readable = true
  constant : l.writable = false
  executable : l.executable = true

/-- Code of DoubleTake. -/
structure Library (l : MapsLine) : Prop extends Code l where
  file : "libdoubletake".toList <:+: l.path

/-- Code of the executable. -/
structure Application (main : List Char) (l : MapsLine) : Prop extends Code l where
  file : l.path = main
  foreign : ¬ "libdoubletake".toList <:+: l.path

/-- The highest of the lines with a property. -/
structure Highest (p : MapsLine → Prop) (lines : List MapsLine) (l : MapsLine) : Prop where
  mem : l ∈ lines
  holds : p l
  highest : ∀ k ∈ lines, p k → k.interval.base ≤ l.interval.base

end MapsLine

theorem library_iff (l : MapsLine) : (l.mapping.isText && l.mapping.names "libdoubletake") = true ↔ l.Library := by
  simp only [Mapping.isText, Mapping.names, Bool.and_eq_true, Bool.not_eq_true', decide_eq_true_eq]
  constructor
  · rintro ⟨⟨⟨hr, hw⟩, hx⟩, hl⟩
    exact ⟨⟨hr, hw, hx⟩, hl⟩
  · exact fun h => ⟨⟨⟨h.readable, h.constant⟩, h.executable⟩, h.file⟩

theorem application_iff (l : MapsLine) :
    (l.mapping.isText && (!l.mapping.names "libdoubletake" && l.mapping.file == main)) = true ↔ l.Application main := by
  simp only [Mapping.isText, Mapping.names, Bool.and_eq_true, Bool.not_eq_true', decide_eq_false_iff_not, beq_iff_eq]
  constructor
  · rintro ⟨⟨⟨hr, hw⟩, hx⟩, hl, hf⟩
    exact ⟨⟨hr, hw, hx⟩, hf, hl⟩
  · exact fun h => ⟨⟨⟨h.readable, h.constant⟩, h.executable⟩, h.foreign, h.file⟩

/-- Two lines with one base are one. -/
theorem MapsText.eq_of_base (h : MapsText lines) {l k : MapsLine} (hl : l ∈ lines) (hk : k ∈ lines)
    (heq : l.interval.base = k.interval.base) : l = k := by
  by_contra hne
  have hsymm : Std.Symm MapsLine.Disjoint := ⟨fun a b hab x hx => hab x ⟨hx.2, hx.1⟩⟩
  refine h.disjoint.forall hl hk hne l.interval.base ⟨(l.contains_iff _).mpr ⟨le_refl _, (h.wellFormed l hl).nonempty⟩, ?_⟩
  exact (k.contains_iff _).mpr ⟨heq.ge, heq ▸ (h.wellFormed k hk).nonempty⟩

/-- The last mapping in the map is the highest. -/
theorem highest_of_getLast? (h : MapsText lines) (hp : Parsed lines s) {p : Mapping → Bool} {e : Interval × Mapping}
    (he : (s.mappings.filter fun e => p e.2).getLast? = some e) :
    ∃ l : MapsLine, l.Highest (fun l => p l.mapping = true) lines ∧ e = (l.interval, l.mapping) := by
  obtain ⟨hmem, hpe⟩ := List.mem_filter.mp (List.mem_of_getLast? he)
  obtain ⟨l, hl, rfl⟩ := List.mem_map.mp (hp.entries.mem_iff.mp hmem)
  refine ⟨l, ⟨hl, hpe, fun k hk hpk => ?_⟩, rfl⟩
  have hkmem : (k.interval, k.mapping) ∈ s.mappings.filter fun e => p e.2 :=
    List.mem_filter.mpr ⟨hp.entries.mem_iff.mpr (List.mem_map_of_mem hk), hpk⟩
  obtain ⟨before, hsplit⟩ := List.getLast?_eq_some_iff.mp he
  rw [hsplit, List.mem_append, List.mem_singleton] at hkmem
  rcases hkmem with hkmem | heq
  · have hordered := hp.ordered.filter fun e => p e.2
    rw [hsplit, List.pairwise_append] at hordered
    have hle := hordered.2.2 _ hkmem _ (List.mem_singleton_self _)
    exact (h.wellFormed k hk).nonempty.le.trans hle
  · exact (congrArg (fun e => e.1.base) heq).le

/-- What counts as lying between the ends of the last mapping, where the ends are null pointers to begin with. -/
theorem between_iff (h : MapsText lines) (hp : Parsed lines s) {p : Mapping → Bool} {q : MapsLine → Prop}
    (hq : ∀ l : MapsLine, p l.mapping = true ↔ q l) {start stop : Nat}
    (hends : (start, stop) = ((s.mappings.filter fun e => p e.2).getLast?.map fun e => (e.2.base, e.2.limit)).getD (0, 0)) (pc : Nat) :
    (decide (pc ≥ start) && decide (pc ≤ stop)) = true ↔
      (∃ l : MapsLine, l.Highest q lines ∧ l.interval.base ≤ pc ∧ pc ≤ l.interval.limit) ∨ (∀ l ∈ lines, ¬ q l) ∧ pc = 0 := by
  obtain rfl : (fun l : MapsLine => p l.mapping = true) = q := funext fun l => propext (hq l)
  rw [Bool.and_eq_true, decide_eq_true_eq, decide_eq_true_eq]
  cases hlast : (s.mappings.filter fun e => p e.2).getLast? with
  | none =>
    rw [hlast] at hends
    rw [List.getLast?_eq_none_iff, List.filter_eq_nil_iff] at hlast
    have hnone : ∀ l ∈ lines, ¬ p l.mapping = true := fun l hl => hlast _ (hp.entries.mem_iff.mpr (List.mem_map_of_mem hl))
    cases hends
    constructor
    · exact fun hle => .inr ⟨hnone, Nat.le_zero.mp hle.2⟩
    · rintro (⟨l, hl, -⟩ | ⟨-, rfl⟩)
      · exact absurd hl.holds (hnone l hl.mem)
      · exact ⟨le_refl _, le_refl _⟩
  | some e =>
    rw [hlast] at hends
    obtain ⟨l, hl, rfl⟩ := highest_of_getLast? h hp hlast
    cases hends
    constructor
    · exact fun hle => .inl ⟨l, hl, hle⟩
    · rintro (⟨k, hk, hle⟩ | ⟨hnone, -⟩)
      · have heq := h.eq_of_base hk.mem hl.mem (le_antisymm (hl.highest k hk.mem hk.holds) (hk.highest l hl.mem hl.holds))
        rw [← heq]
        exact hle
      · exact absurd hl.holds (hnone l hl.mem)

theorem add_doubletake (t : TextRegions) (main : List Char) (m : Mapping) :
    ((t.add main m).doubletakeStart, (t.add main m).doubletakeEnd) =
      if (m.isText && m.names "libdoubletake") = true then (m.base, m.limit) else (t.doubletakeStart, t.doubletakeEnd) := by
  rw [TextRegions.add]
  cases m.isText with
  | false => rfl
  | true =>
    cases m.names "libdoubletake" with
    | true => rfl
    | false =>
      rw [if_pos rfl, if_neg Bool.false_ne_true]
      split <;> rfl

theorem add_appText (t : TextRegions) (main : List Char) (m : Mapping) :
    ((t.add main m).appTextStart, (t.add main m).appTextEnd) =
      if (m.isText && (!m.names "libdoubletake" && m.file == main)) = true then (m.base, m.limit) else (t.appTextStart, t.appTextEnd) := by
  rw [TextRegions.add]
  cases m.isText with
  | false => rfl
  | true =>
    cases m.names "libdoubletake" with
    | true => rfl
    | false =>
      rw [if_pos rfl, if_neg Bool.false_ne_true]
      by_cases hfile : m.file = main
      · simp [hfile]
      · simp [hfile]

/-- An address counts as one of the library, or of the application, if it is in the highest region of their code, or at its end; if
    there is none, the null pointer does. -/
theorem text_regions_iff (h : MapsText lines) {first : MapsLine} (hfirst : lines.head? = some first)
    (hs : selfmap (lines.flatMap MapsLine.text) = some s) (pcaddr : Nat) :
    ((s.getTextRegions .unset).isDoubleTakeLibrary pcaddr = true ↔
      (∃ l : MapsLine, l.Highest MapsLine.Library lines ∧ l.interval.base ≤ pcaddr ∧ pcaddr ≤ l.interval.limit) ∨
        (∀ l ∈ lines, ¬ l.Library) ∧ pcaddr = 0) ∧
    ((s.getTextRegions .unset).isApplication pcaddr = true ↔
      (∃ l : MapsLine, l.Highest (MapsLine.Application first.path) lines ∧ l.interval.base ≤ pcaddr ∧ pcaddr ≤ l.interval.limit) ∨
        (∀ l ∈ lines, ¬ l.Application first.path) ∧ pcaddr = 0) := by
  have hp := h.parsed hs
  refine ⟨between_iff h hp (p := fun m => m.isText && m.names "libdoubletake") library_iff ?_ pcaddr, ?_⟩
  · rw [← foldl_last]
    exact (List.foldl_hom (fun t : TextRegions => (t.doubletakeStart, t.doubletakeEnd)) fun t e => (add_doubletake t s.main_exe e.2).symm).symm
  · rw [← hp.main_exe first hfirst]
    refine between_iff h hp (p := fun m => m.isText && (!m.names "libdoubletake" && m.file == s.main_exe)) application_iff ?_ pcaddr
    rw [← foldl_last]
    exact (List.foldl_hom (fun t : TextRegions => (t.appTextStart, t.appTextEnd)) fun t e => (add_appText t s.main_exe e.2).symm).symm

/-- The first address behind the code of DoubleTake counts as its code. -/
theorem text_regions_iff_process : ∃ s, selfmap (process.flatMap MapsLine.text) = some s ∧
    (s.getTextRegions .unset).isDoubleTakeLibrary 0x7F10000 = true ∧ (s.getTextRegions .unset).isApplication 0x7F10000 = false := by
  have hread : (selfmap (process.flatMap MapsLine.text)).isSome = true := by decide +kernel
  obtain ⟨s, hs⟩ := Option.isSome_iff_exists.mp hread
  obtain ⟨hlibrary, happlication⟩ := text_regions_iff process_text rfl hs 0x7F10000
  have hhighest : ∀ l ∈ process, l.interval.base ≤ 0x7F00000 := by decide +kernel
  have hlimit : ∀ l ∈ process, l.path = "/bin/a".toList → l.interval.limit ≤ 0x60B000 := by decide +kernel
  have hcode : (processLine "7f00000" "7f10000" "/lib/libdoubletake.so" false true).Library :=
    ⟨⟨rfl, rfl, rfl⟩, by decide +kernel⟩
  refine ⟨s, hs, hlibrary.mpr (.inl ⟨_, ⟨?_, hcode, fun l hl _ => hhighest l hl⟩, by decide +kernel, by decide +kernel⟩), ?_⟩
  · exact List.mem_cons_of_mem _ (List.mem_cons_of_mem _ List.mem_cons_self)
  · refine Bool.eq_false_iff.mpr fun happ => ?_
    rcases happlication.mp happ with ⟨l, hl, -, hle⟩ | ⟨-, hnull⟩
    · exact absurd (hle.trans (hlimit l hl.mem hl.holds.file)) (by decide)
    · exact absurd hnull (by decide)

end DoubleTake
