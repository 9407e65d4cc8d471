import DoubleTake.Theorems.Bitmap
import DoubleTake.Theorems.MemTrack

/-! The runs of the tracer: which watchpoint a trap is taken to be on, which fault is found there, and what is printed for it. -/

namespace DoubleTake

open Transition MemTrack

namespace Tracer

variable {s s' : Tracer} {acts : List Act} {mem : Mem} {bitmap : Bitmap} {inLibrary : Bool} {callStack : List Nat} {i j : Nat}

/-! ### The search for the watchpoint -/

section Search

variable {map : SentinelMap} {value : Nat → Nat} {l : List FaultyObject} {w : FaultyObject} {c : Search}

/-- The search stops at the watchpoint, whose value was `value`. -/
def Stops (map : SentinelMap) (value : Nat → Nat) (l : List FaultyObject) (i : Nat) : Prop :=
  ∃ w, l[i]? = some w ∧ (map.word w.faultyaddr ≠ value i ∨ map.wp.length = 1)

/-- What the search has found in the first watchpoints. -/
structure Scanned (map : SentinelMap) (value : Nat → Nat) (l : List FaultyObject) (c : Search) : Prop where
  seen : ∀ i w, l[i]? = some w → c.currentvalue i = map.word w.faultyaddr
  unseen : ∀ i, l.length ≤ i → c.currentvalue i = value i
  found : c.trigPoints = 0 ∧ (∀ i, ¬ Stops map value l i) ∨
    ∃ i, c.trigPoints ≠ 0 ∧ c.object = some i ∧ Stops map value l i ∧ ∀ j, i < j → ¬ Stops map value l j

theorem Stops.lt (h : Stops map value l i) : i < l.length := by
  obtain ⟨w, hw, -⟩ := h
  exact (List.getElem?_eq_some_iff.mp hw).1

theorem stops_concat : Stops map value (l ++ [w]) i ↔
    Stops map value l i ∨ i = l.length ∧ (map.word w.faultyaddr ≠ value l.length ∨ map.wp.length = 1) := by
  rcases Nat.lt_trichotomy i l.length with hlt | rfl | hgt
  · rw [Stops, List.getElem?_append_left hlt]
    exact (or_iff_left fun hand => Nat.ne_of_lt hlt hand.1).symm
  · rw [Stops, List.getElem?_concat_length, or_iff_right fun h => Nat.lt_irrefl _ h.lt, and_iff_right rfl]
    constructor
    · rintro ⟨w', heq, h⟩
      cases heq
      exact h
    · exact fun h => ⟨w, rfl, h⟩
  · refine iff_of_false (fun h => ?_) fun h => ?_
    · have hlt := h.lt
      rw [List.length_append] at hlt
      exact absurd hlt (Nat.not_lt.mpr hgt)
    · rcases h with h | ⟨heq, -⟩
      · exact Nat.lt_asymm hgt h.lt
      · exact Nat.ne_of_gt hgt heq

theorem getElem?_concat {w' : FaultyObject} (h : (l ++ [w])[i]? = some w') :
    l[i]? = some w' ∧ i ≠ l.length ∨ i = l.length ∧ w' = w := by
  rcases Nat.lt_trichotomy i l.length with hlt | rfl | hgt
  · rw [List.getElem?_append_left hlt] at h
    exact .inl ⟨h, Nat.ne_of_lt hlt⟩
  · rw [List.getElem?_concat_length] at h
    exact .inr ⟨rfl, (Option.some.inj h).symm⟩
  · have hlt := (List.getElem?_eq_some_iff.mp h).1
    rw [List.length_append] at hlt
    exact absurd hlt (Nat.not_lt.mpr hgt)

theorem Scanned.step (h : Scanned map value l c) (w : FaultyObject) :
    Scanned map value (l ++ [w]) (findFaultyStep map c (w, l.length)) := by
  rw [findFaultyStep]
  dsimp only
  rw [h.unseen l.length (Nat.le_refl _)]
  split
  · rename_i htrig
    refine ⟨fun i w' hw' => ?_, fun i hi => ?_, .inr ⟨l.length, Nat.succ_ne_zero _, rfl, stops_concat.mpr (.inr ⟨rfl, htrig⟩), ?_⟩⟩
    · dsimp only
      rcases getElem?_concat hw' with ⟨hw', hne⟩ | ⟨rfl, rfl⟩
      · rw [Function.update_of_ne hne]
        exact h.seen i w' hw'
      · exact Function.update_self ..
    · dsimp only
      rw [List.length_append] at hi
      rw [Function.update_of_ne (Nat.ne_of_gt hi)]
      exact h.unseen i (Nat.le_of_lt hi)
    · intro j hj hstop
      have hlt := hstop.lt
      rw [List.length_append] at hlt
      exact absurd hlt (Nat.not_lt.mpr hj)
  · rename_i htrig
    have hstops : ∀ i, Stops map value (l ++ [w]) i ↔ Stops map value l i := fun i =>
      stops_concat.trans (or_iff_left fun hand => htrig hand.2)
    refine ⟨fun i w' hw' => ?_, fun i hi => ?_, ?_⟩
    · rcases getElem?_concat hw' with ⟨hw', -⟩ | ⟨rfl, rfl⟩
      · exact h.seen i w' hw'
      · rw [h.unseen _ (Nat.le_refl _)]
        exact (not_not.mp (not_or.mp htrig).1).symm
    · rw [List.length_append] at hi
      exact h.unseen i (Nat.le_of_lt hi)
    · simp only [hstops]
      exact h.found

theorem scanned (map : SentinelMap) (value : Nat → Nat) (l : List FaultyObject) :
    Scanned map value l (l.zipIdx.foldl (findFaultyStep map) ⟨value, none, 0⟩) := by
  induction l using List.reverseRecOn with
  | nil =>
    refine ⟨fun i w hw => ?_, fun i _ => rfl, .inl ⟨rfl, fun i h => Nat.not_lt_zero i h.lt⟩⟩
    cases hw
  | append_singleton l w ih =>
    rw [List.zipIdx_append, List.foldl_append, Nat.zero_add, List.zipIdx_singleton, List.foldl_cons, List.foldl_nil]
    exact ih.step w

end Search

/-- The watchpoint is one that the search stops at. -/
def Triggered (s : Tracer) (i : Nat) : Prop := Stops s.map s.currentvalue s.map.wp i

/-- The search takes the last watchpoint that it stops at. -/
theorem findFaultyObject_fst : s.findFaultyObject.1 = some i ↔ s.Triggered i ∧ ∀ j, i < j → ¬ s.Triggered j := by
  rw [findFaultyObject]
  dsimp only
  rcases (scanned s.map s.currentvalue s.map.wp).found with ⟨hzero, hnone⟩ | ⟨k, hpos, hobj, hstop, hlast⟩
  · rw [if_neg fun hne => hne hzero]
    exact iff_of_false (fun h => by cases h) fun h => hnone i h.1
  · rw [if_pos hpos, hobj]
    constructor
    · intro heq
      cases heq
      exact ⟨hstop, hlast⟩
    · rintro ⟨hi, hafter⟩
      rcases Nat.lt_trichotomy i k with hlt | rfl | hgt
      · exact absurd hstop (hafter k hlt)
      · rfl
      · exact absurd hi (hlast i hgt)

/-- After it the values are those of the words. -/
theorem findFaultyObject_currentvalue {w : FaultyObject} (hw : s.map.wp[i]? = some w) :
    s.findFaultyObject.2.currentvalue i = s.map.word w.faultyaddr := (scanned s.map s.currentvalue s.map.wp).seen i w hw

theorem findFaultyObject_lt (h : s.findFaultyObject.1 = some i) : ∃ w, s.map.wp[i]? = some w := by
  obtain ⟨⟨w, hw, -⟩, -⟩ := findFaultyObject_fst.mp h
  exact ⟨w, hw⟩

/-! ### The handling of a trap -/

/-- What the handler goes through to print a fault of a type that was found. -/
theorem trapHandler_fault {site : Nat → CallSite} {faultType : Option FaultyObjectType} {report : Watchpoint.Report}
    (h : (Watchpoint.trapHandler site ⟨some i, false, false, faultType, callStack⟩).1 = some report) :
    ∃ type, faultType = some type ∧ report = .fault i type callStack := by
  rw [Watchpoint.trapHandler] at h
  cases faultType with
  | none => cases h
  | some type =>
    simp only [Bool.false_eq_true, if_false] at h
    split at h
    · cases h
    · exact ⟨type, rfl, (Option.some.inj h).symm⟩

/-- What a trap that finds a watchpoint outside of the library comes to, where `faultType` is the fault that is found. -/
def handled (s : Tracer) (callStack : List Nat) (i : Nat) (w : FaultyObject) (faultType : Option FaultyObjectType) :
    Option ((Option Watchpoint.Report × Option Stacks) × Tracer) :=
  let answer := Watchpoint.trapHandler s.faultySite ⟨some i, false, false, faultType, callStack⟩
  let after := { s.findFaultyObject.2 with faultySite := answer.2 }
  match answer.1 with
  | some (.fault _ type _) =>
    (if w.objectstart ≠ 0 then s.track.print w.objectstart type else some none).map fun printed => ((answer.1, printed), after)
  | _ => some ((answer.1, none), after)

theorem handled_fault {w : FaultyObject} {faultType : Option FaultyObjectType} {type : FaultyObjectType} {stack : List Nat}
    {printed : Option Stacks} (h : s.handled callStack i w faultType = some ((some (.fault j type stack), printed), s')) :
    j = i ∧ faultType = some type ∧
      (if w.objectstart ≠ 0 then s.track.print w.objectstart type else some none) = some printed := by
  rw [handled] at h
  dsimp only at h
  split at h
  · rename_i k type' stack' hanswer
    obtain ⟨type'', rfl, hreport⟩ := trapHandler_fault hanswer
    cases hreport
    obtain ⟨printed', hprint, heq⟩ := Option.map_eq_some_iff.mp h
    rw [hanswer] at heq
    cases heq
    exact ⟨rfl, rfl, hprint⟩
  · rename_i report hnot
    cases hanswer : (Watchpoint.trapHandler s.faultySite ⟨some i, false, false, faultType, callStack⟩).1 with
    | none =>
      rw [hanswer] at h
      cases h
    | some report =>
      obtain ⟨type', -, rfl⟩ := trapHandler_fault hanswer
      exact absurd hanswer (hnot _ _ _)

theorem handled_eq_none {w : FaultyObject} {faultType : Option FaultyObjectType} (h : s.handled callStack i w faultType = none) :
    ∃ type, faultType = some type ∧ w.objectstart ≠ 0 ∧ s.track.print w.objectstart type = none := by
  rw [handled] at h
  dsimp only at h
  split at h
  · rename_i k type' stack' hanswer
    obtain ⟨type, rfl, hreport⟩ := trapHandler_fault hanswer
    cases hreport
    rw [Option.map_eq_none_iff] at h
    split at h
    · rename_i hne
      exact ⟨_, rfl, hne, h⟩
    · cases h
  · cases h

theorem trap_eq (s : Tracer) (inLibrary : Bool) (callStack : List Nat) : s.trap inLibrary callStack =
    match s.findFaultyObject.1 with
    | none => some ((some .notFound, none), s.findFaultyObject.2)
    | some i =>
      if inLibrary then some ((none, none), s.findFaultyObject.2)
      else s.map.wp[i]?.bind fun w =>
        (s.track.getFaultType s.map w.objectstart w.faultyaddr).bind fun faultType => s.handled callStack i w faultType := by
  rw [trap]
  rcases hobj : s.findFaultyObject with ⟨_ | i, s₁⟩
  · rfl
  · have hs : s₁ = s.findFaultyObject.2 := by rw [hobj]
    subst hs
    dsimp only
    split
    · rfl
    · refine congrArg _ (funext fun w => congrArg _ (funext fun faultType => ?_))
      rw [handled]
      dsimp only [findFaultyObject]
      rcases Watchpoint.trapHandler s.faultySite ⟨some i, false, false, faultType, callStack⟩ with ⟨report, site⟩
      rcases report with _ | (_ | j | ⟨j, type, stack⟩)
      · rfl
      · rfl
      · rfl
      · dsimp only
        split
        · cases s.track.print w.objectstart type <;> rfl
        · rfl

/-- A trap changes nothing of the heap, the watchpoints and the objects. -/
theorem trap_frame {r : (Option Watchpoint.Report × Option Stacks) × Tracer} (h : s.trap inLibrary callStack = some r) :
    r.2.map = s.map ∧ r.2.track = s.track ∧ r.2.currentvalue = s.findFaultyObject.2.currentvalue := by
  rw [trap_eq] at h
  split at h
  · cases h
    exact ⟨rfl, rfl, rfl⟩
  · split at h
    · cases h
      exact ⟨rfl, rfl, rfl⟩
    · obtain ⟨w, -, h⟩ := Option.bind_eq_some_iff.mp h
      obtain ⟨faultType, -, h⟩ := Option.bind_eq_some_iff.mp h
      rw [handled] at h
      dsimp only at h
      split at h
      · obtain ⟨printed, -, rfl⟩ := Option.map_eq_some_iff.mp h
        exact ⟨rfl, rfl, rfl⟩
      · cases h
        exact ⟨rfl, rfl, rfl⟩

/-! ### Runs -/

/-- What a step says of the tracked objects. -/
def Act.events : Act → List Event
  | .addWatchpoint fresh _ objtype objectstart objectsize => [.insert objectstart objectsize (.fault objtype) fresh.contents]
  | .insertLeakageMap fresh ptr size => [.insert ptr size .leak fresh.contents]
  | .check start size op callsites => [.check start size op callsites]
  | .installWatchpoints | .run .. | .trap .. => []

/-- The events of the steps, the latest of which comes first. -/
def history (past : List Act) : List Event := past.flatMap Act.events

/-- The heap after the steps. -/
def heap (mem : Mem) : List Act → Mem
  | [] => mem
  | .run mem _ :: _ => mem
  | .addWatchpoint .. :: past | .insertLeakageMap .. :: past | .installWatchpoints :: past | .check .. :: past | .trap .. :: past =>
    heap mem past

/-- How often a watchpoint was to be added. -/
def added : List Act → Nat
  | [] => 0
  | .addWatchpoint .. :: past => added past + 1
  | .run .. :: past | .insertLeakageMap .. :: past | .installWatchpoints :: past | .check .. :: past | .trap .. :: past => added past

/-- The heap when the watchpoint was looked at last: when it was added, at the installation or at a trap. -/
def seen (mem : Mem) (i : Nat) : List Act → Mem
  | [] => mem
  | .installWatchpoints :: past | .trap .. :: past => heap mem past
  | .addWatchpoint .. :: past => if added past = i then heap mem past else seen mem i past
  | .run .. :: past | .insertLeakageMap .. :: past | .check .. :: past => seen mem i past

/-- What holds after the steps. -/
structure After (mem : Mem) (past : List Act) (s : Tracer) : Prop where
  table : ∃ t, tableOf (history past) = some t ∧ Represents s.track t
  heap : s.map.mem = heap mem past
  added : s.map.wp.length = min (added past) MAX_WATCHPOINTS
  seen : ∀ i w, s.map.wp[i]? = some w → s.currentvalue i = (seen mem i past).read w.faultyaddr 8
  tracked : ∀ w ∈ s.map.wp, w.objectstart ≠ 0 → memory w.objectstart (history past) ≠ none

theorem After.initial (mem : Mem) (bitmap : Bitmap) : After mem [] (initial mem bitmap) := by
  refine ⟨⟨_, rfl, rfl⟩, rfl, rfl, fun i w hw => ?_, fun w hw => ?_⟩
  · cases hw
  · cases hw

/-- An object stays tracked. -/
theorem memory_cons {e : Event} {events : List Event} {start : Nat} (h : memory start events ≠ none) :
    memory start (e :: events) ≠ none := by
  cases e with
  | insert p size type c =>
    obtain ⟨contents, hm⟩ := Option.ne_none_iff_exists'.mp h
    rw [memory_insert_of_some c hm]
    exact fun hnone => by cases hnone
  | check => exact h

/-- The values after the installation. -/
theorem foldl_install (map : SentinelMap) (value : Nat → Nat) (l : List FaultyObject) {w : FaultyObject} (hw : l[i]? = some w) :
    l.zipIdx.foldl (fun value w => Function.update value w.2 (map.word w.1.faultyaddr)) value i = map.word w.faultyaddr := by
  induction l using List.reverseRecOn with
  | nil => cases hw
  | append_singleton l w' ih =>
    rw [List.zipIdx_append, List.foldl_append, Nat.zero_add, List.zipIdx_singleton, List.foldl_cons, List.foldl_nil]
    rcases getElem?_concat hw with ⟨hw, hne⟩ | ⟨rfl, rfl⟩
    · rw [Function.update_of_ne hne]
      exact ih hw
    · exact Function.update_self ..

/-- The object of a new watchpoint is tracked from then on. -/
theorem memory_insert_self {events : List Event} {start size : Nat} {type : ErrorType} (hstart : start ≠ 0) (c : TrackObject) :
    memory start (.insert start size type c :: events) ≠ none := by
  rw [memory, if_pos ⟨rfl, hstart⟩]
  cases memory start events <;> exact fun hnone => by cases hnone

/-- What a new watchpoint keeps of the others. -/
theorem After.add {past : List Act} {addr objectstart objectsize : Nat} {objtype : FaultyObjectType} {fresh : Fresh}
    {track : MemTrack} (h : After mem past s)
    (htable : ∃ t, tableOf (history (.addWatchpoint fresh addr objtype objectstart objectsize :: past)) = some t ∧ Represents track t) :
    After mem (.addWatchpoint fresh addr objtype objectstart objectsize :: past)
      { s with
        map := s.map.addWatchpoint addr objtype objectstart
        currentvalue :=
          if s.map.wp.length < MAX_WATCHPOINTS then Function.update s.currentvalue s.map.wp.length (s.map.word addr)
          else s.currentvalue
        track := track } := by
  have hold : ∀ w ∈ s.map.wp, w.objectstart ≠ 0 →
      memory w.objectstart (history (.addWatchpoint fresh addr objtype objectstart objectsize :: past)) ≠ none :=
    fun w hw hne => memory_cons (h.tracked w hw hne)
  have hadded := h.added
  by_cases hroom : s.map.wp.length < MAX_WATCHPOINTS
  · have hlen : s.map.wp.length = Tracer.added past := by
      rw [hadded] at hroom ⊢
      exact Nat.min_eq_left (Nat.le_of_lt ((min_lt_iff.mp hroom).resolve_right (Nat.lt_irrefl _)))
    have hwp : (s.map.addWatchpoint addr objtype objectstart).wp = s.map.wp ++ [⟨objtype, addr, objectstart, s.map.word addr⟩] := by
      rw [SentinelMap.addWatchpoint, DoubleTake.addWatchpoint, if_pos hroom]
    refine ⟨htable, h.heap, ?_, fun i w hw => ?_, fun w hw hne => ?_⟩
    · show (s.map.addWatchpoint addr objtype objectstart).wp.length = _
      rw [hwp, List.length_append, hlen]
      rw [hlen] at hroom
      exact (Nat.min_eq_left hroom).symm
    · have hw : (s.map.addWatchpoint addr objtype objectstart).wp[i]? = some w := hw
      rw [hwp] at hw
      dsimp only
      rw [if_pos hroom, Tracer.seen]
      rcases getElem?_concat hw with ⟨hw, hne⟩ | ⟨rfl, rfl⟩
      · rw [Function.update_of_ne hne, if_neg fun heq => hne (heq.symm.trans hlen.symm)]
        exact h.seen i w hw
      · rw [Function.update_self, if_pos hlen.symm, SentinelMap.word, h.heap]
    · have hw : w ∈ (s.map.addWatchpoint addr objtype objectstart).wp := hw
      rw [hwp] at hw
      rcases List.mem_append.mp hw with hw | hw
      · exact hold w hw hne
      · rw [List.mem_singleton.mp hw] at hne ⊢
        exact memory_insert_self hne fresh.contents
  · have hwp : (s.map.addWatchpoint addr objtype objectstart).wp = s.map.wp := by
      rw [SentinelMap.addWatchpoint, DoubleTake.addWatchpoint, if_neg hroom]
    have hfull : MAX_WATCHPOINTS ≤ Tracer.added past := (le_min_iff.mp (hadded ▸ Nat.not_lt.mp hroom)).1
    refine ⟨htable, h.heap, ?_, fun i w hw => ?_, fun w hw hne => ?_⟩
    · show (s.map.addWatchpoint addr objtype objectstart).wp.length = _
      rw [hwp, hadded, Nat.min_eq_right hfull]
      exact (Nat.min_eq_right (Nat.le_succ_of_le hfull)).symm
    · have hw : (s.map.addWatchpoint addr objtype objectstart).wp[i]? = some w := hw
      rw [hwp] at hw
      have hlt : i < Tracer.added past := by
        have hi := (List.getElem?_eq_some_iff.mp hw).1
        rw [hadded] at hi
        exact (lt_min_iff.mp hi).1
      dsimp only
      rw [if_neg hroom, Tracer.seen, if_neg (Nat.ne_of_gt hlt)]
      exact h.seen i w hw
    · have hw : w ∈ (s.map.addWatchpoint addr objtype objectstart).wp := hw
      rw [hwp] at hw
      exact hold w hw hne

theorem After.step {past : List Act} {act : Act} (h : After mem past s) (hs : system.step s act s') : After mem (act :: past) s' := by
  obtain ⟨t, ht, hrep⟩ := h.table
  have hs : s.exec act = some s' := hs
  cases act with
  | addWatchpoint fresh addr objtype objectstart objectsize =>
    rw [exec, addWatchpoint, Option.bind_eq_bind] at hs
    obtain ⟨track, htrack, hs⟩ := Option.bind_eq_some_iff.mp hs
    cases hs
    obtain ⟨t', ht', hrep'⟩ := hrep.insert htrack
    refine h.add ⟨t', ?_, hrep'⟩
    show (tableOf (history past)).bind _ = _
    rw [ht]
    exact ht'
  | insertLeakageMap fresh ptr size =>
    obtain ⟨track, htrack, rfl⟩ := Option.map_eq_some_iff.mp hs
    obtain ⟨t', ht', hrep'⟩ := hrep.insert htrack
    refine ⟨⟨t', ?_, hrep'⟩, h.heap, h.added, h.seen, fun w hw hne => memory_cons (h.tracked w hw hne)⟩
    show (tableOf (history past)).bind _ = _
    rw [ht]
    exact ht'
  | installWatchpoints =>
    cases hs
    refine ⟨⟨t, ht, hrep⟩, h.heap, h.added, fun i w hw => ?_, h.tracked⟩
    refine (foldl_install s.map s.currentvalue s.map.wp hw).trans ?_
    rw [SentinelMap.word, h.heap]
    rfl
  | check start size op callsites =>
    obtain ⟨r, hr, rfl⟩ := Option.map_eq_some_iff.mp hs
    obtain ⟨r', hr', hrep'⟩ := hrep.check start size op callsites
    rw [hr] at hr'
    cases hr'
    refine ⟨⟨_, ?_, hrep'⟩, h.heap, h.added, h.seen, fun w hw hne => memory_cons (h.tracked w hw hne)⟩
    show (tableOf (history past)).map _ = _
    rw [ht]
    rfl
  | run mem' bitmap =>
    cases hs
    exact ⟨⟨t, ht, hrep⟩, rfl, h.added, h.seen, h.tracked⟩
  | trap inLibrary callStack =>
    obtain ⟨r, hr, rfl⟩ := Option.map_eq_some_iff.mp hs
    obtain ⟨hmap, htrack, hvalue⟩ := trap_frame hr
    refine ⟨⟨t, ht, by rw [htrack]; exact hrep⟩, by rw [hmap]; exact h.heap, by rw [hmap]; exact h.added, fun i w hw => ?_, ?_⟩
    · rw [hmap] at hw
      rw [hvalue, findFaultyObject_currentvalue hw, SentinelMap.word, h.heap]
      rfl
    · rw [hmap]
      exact h.tracked

theorem After.of_steps (h : Steps system (Tracer.initial mem bitmap) acts s) : After mem acts.reverse s :=
  h.past (P := After mem) (fun _ _ _ _ => After.step) (.initial mem bitmap)

theorem After.known {past : List Act} (h : After mem past s) (start : Nat) :
    ∃ t, Represents s.track t ∧ Known start (history past) (t start) := by
  obtain ⟨t, ht, hrep⟩ := h.table
  exact ⟨t, hrep, known_of_table ht start⟩

/-! ### What a trap finds -/

/-- The word of the watchpoint has changed since it was looked at last. A single watchpoint needs no change. -/
def Changed (mem : Mem) (past : List Act) (s : Tracer) (i : Nat) : Prop :=
  ∃ w, s.map.wp[i]? = some w ∧ (s.map.word w.faultyaddr ≠ (seen mem i past).read w.faultyaddr 8 ∨ s.map.wp.length = 1)

/-- A trap is taken to be on the last of the watchpoints whose words have changed since the installation, the trap before, or their
    own addition, whichever was last. -/
theorem found_iff_last_changed (h : Steps system (initial mem bitmap) acts s) (i : Nat) :
    s.findFaultyObject.1 = some i ↔ Changed mem acts.reverse s i ∧ ∀ j, i < j → ¬ Changed mem acts.reverse s j := by
  have hafter := After.of_steps h
  have htrig : ∀ j, s.Triggered j ↔ Changed mem acts.reverse s j := by
    refine fun j => exists_congr fun w => and_congr_right fun hw => ?_
    rw [hafter.seen j w hw]
  rw [findFaultyObject_fst]
  simp only [htrig]

/-- An object that was freed since it was inserted last has a use after free at an address inside of the size that it was last
    allocated with, if that was traced, and else inside of what was in the memory; one that was not freed has an overflow where a
    sentinel is corrupted. One that was never inserted makes an assertion fail. -/
theorem getFaultType_eq_history (h : Steps system (initial mem bitmap) acts s) (start a : Nat) :
    s.track.getFaultType s.map start a = (memory start (history acts.reverse)).bind fun contents =>
      if lastOperation start (history acts.reverse) = some .free then
        some (if start ≤ a ∧ a ≤ (start + blockSize start (history acts.reverse) contents) % 2 ^ 64 then some .useAfterFree else none)
      else (s.map.isOverflow a).map fun overflow => if overflow then some .overflow else none := by
  obtain ⟨t, hrep, hk⟩ := (After.of_steps h).known start
  exact hrep.getFaultType hk a

/-- A leaked object is reported, with the size it was found leaked with last, at the allocations and deallocations of its address that
    are traced: all of them if it has a fault as well, and else those with its size. -/
theorem leak_report_eq_history (h : Steps system (initial mem bitmap) acts s) (start size : Nat) (op : MemTrackType)
    (callsites : List Nat) : (s.track.check start size op callsites).map Prod.fst =
      some ((memory start (history acts.reverse)).bind fun _ =>
        if accepts start size (history acts.reverse) = true ∧ inserted start .leak (history acts.reverse) = true then
          (insertedSize start (history acts.reverse)).map fun leaked => ⟨start, leaked, callsites⟩
        else none) := by
  obtain ⟨t, hrep, hk⟩ := (After.of_steps h).known start
  exact hrep.check_report hk size op callsites

/-- Memory that is all zeros. -/
def blank : TrackObject := ⟨0, 0, 0, 0, 0, 0, .initial, .initial⟩

def zeros : Mem := fun _ => 0

/-- The sentinels behind the two objects are marked. -/
def marked : Bitmap := fun w => if w = 0 then 0x110#64 else 0#64

/-- Both objects have overflowed. In the replay the first one is allocated again and overflows again. -/
def replayed : List Act :=
  [.addWatchpoint ⟨0, 0, blank⟩ (USER_HEAP_BASE + 32) .overflow (USER_HEAP_BASE + 16) 16,
    .addWatchpoint ⟨1, 1, blank⟩ (USER_HEAP_BASE + 64) .overflow (USER_HEAP_BASE + 48) 16,
    .installWatchpoints, .check (USER_HEAP_BASE + 16) 16 .malloc [7, 8],
    .run (Function.update zeros (USER_HEAP_BASE + 32) 1) marked]

/-- And then it is freed. -/
def freed : List Act := replayed ++ [.check (USER_HEAP_BASE + 16) 16 .free [5, 6]]

theorem found_iff_last_changed_replayed : ∃ s, Steps system (initial zeros marked) replayed s ∧ Changed zeros replayed.reverse s 0 ∧
    ∀ j, 0 < j → ¬ Changed zeros replayed.reverse s j := by
  have hrun : (replayed.foldlM exec (initial zeros marked)).map (fun s => s.findFaultyObject.1) = some (some 0) := by decide +kernel
  obtain ⟨s, hs, hfound⟩ := Option.map_eq_some_iff.mp hrun
  have hsteps : Steps system (initial zeros marked) replayed s := .of_foldlM (f := exec) (fun _ _ _ h => h) hs
  exact ⟨s, hsteps, (found_iff_last_changed hsteps 0).mp hfound⟩

theorem getFaultType_eq_history_freed : ∃ s, Steps system (initial zeros marked) freed s ∧
    s.track.getFaultType s.map (USER_HEAP_BASE + 16) (USER_HEAP_BASE + 32) = some (some .useAfterFree) := by
  have hrun : (freed.foldlM exec (initial zeros marked)).isSome = true := by decide +kernel
  obtain ⟨s, hs⟩ := Option.isSome_iff_exists.mp hrun
  have hsteps : Steps system (initial zeros marked) freed s := .of_foldlM (f := exec) (fun _ _ _ h => h) hs
  refine ⟨s, hsteps, (getFaultType_eq_history hsteps _ _).trans ?_⟩
  have hlast : lastOperation (USER_HEAP_BASE + 16) (history freed.reverse) = some .free := by decide +kernel
  have hmem : memory (USER_HEAP_BASE + 16) (history freed.reverse) = some blank := rfl
  have hsize : blockSize (USER_HEAP_BASE + 16) (history freed.reverse) blank = 16 := by decide +kernel
  rw [hmem, Option.bind_some, if_pos hlast, hsize]
  rfl

/-- An object leaks, and later overflows; another one of a different size is allocated in its place. -/
def leaked : List Act :=
  [.insertLeakageMap ⟨0, 0, blank⟩ (USER_HEAP_BASE + 16) 16,
    .addWatchpoint ⟨1, 1, blank⟩ (USER_HEAP_BASE + 32) .overflow (USER_HEAP_BASE + 16) 16]

theorem leak_report_eq_history_leaked : ∃ s, Steps system (initial zeros marked) leaked s ∧
    (s.track.check (USER_HEAP_BASE + 16) 24 .malloc [7, 8]).map Prod.fst = some (some ⟨USER_HEAP_BASE + 16, 16, [7, 8]⟩) := by
  have hrun : (leaked.foldlM exec (initial zeros marked)).isSome = true := by decide +kernel
  obtain ⟨s, hs⟩ := Option.isSome_iff_exists.mp hrun
  have hsteps : Steps system (initial zeros marked) leaked s := .of_foldlM (f := exec) (fun _ _ _ h => h) hs
  exact ⟨s, hsteps, (leak_report_eq_history hsteps _ 24 .malloc [7, 8]).trans rfl⟩

/-- The search of the bitmap for one word ends. -/
theorem isOverflow_isSome (map : SentinelMap) (a : Nat) : (map.isOverflow a).isSome = true := by
  rw [SentinelMap.isOverflow, Option.isSome_map, SentinelMap.hasSentinels, Bitmap.hasBitSet_eq]
  have hbits : SentinelMap.getBitSize WORD_SIZE = 1 := rfl
  rw [hbits]
  split
  · rfl
  · split
    · rfl
    · rw [if_neg (by omega)]
      rfl

/-- A use after free is found only for an object that was freed since it was inserted. -/
theorem freed_of_useAfterFree (h : Steps system (initial mem bitmap) acts s) {start a : Nat}
    (hf : s.track.getFaultType s.map start a = some (some .useAfterFree)) :
    lastOperation start (history acts.reverse) = some .free := by
  rw [getFaultType_eq_history h] at hf
  obtain ⟨contents, -, hf⟩ := Option.bind_eq_some_iff.mp hf
  split at hf
  · rename_i hlast
    exact hlast
  · obtain ⟨overflow, -, hf⟩ := Option.map_eq_some_iff.mp hf
    split at hf <;> cases hf

/-- A trap makes an assertion fail only at a watchpoint without an object. -/
theorem trap_fails_iff (h : Steps system (initial mem bitmap) acts s) (inLibrary : Bool) (callStack : List Nat) :
    s.trap inLibrary callStack = none ↔
      inLibrary = false ∧ ∃ i w, s.findFaultyObject.1 = some i ∧ s.map.wp[i]? = some w ∧ w.objectstart = 0 := by
  have hafter := After.of_steps h
  rw [trap_eq]
  cases hfound : s.findFaultyObject.1 with
  | none =>
    refine iff_of_false (fun hnone => by cases hnone) ?_
    rintro ⟨-, i, w, heq, -⟩
    cases heq
  | some i =>
    obtain ⟨w, hw⟩ := findFaultyObject_lt hfound
    cases inLibrary with
    | true => exact iff_of_false (fun hnone => by cases hnone) fun hand => Bool.noConfusion hand.1
    | false =>
      dsimp only
      rw [if_neg Bool.false_ne_true, hw, Option.bind_some, and_iff_right rfl]
      have hobject : (∃ j w', some i = some j ∧ s.map.wp[j]? = some w' ∧ w'.objectstart = 0) ↔ w.objectstart = 0 := by
        constructor
        · rintro ⟨j, w', heq, hw', hzero⟩
          cases heq
          rw [hw] at hw'
          cases hw'
          exact hzero
        · exact fun hzero => ⟨i, w, rfl, hw, hzero⟩
      rw [hobject]
      obtain ⟨t, hrep, hk⟩ := hafter.known w.objectstart
      constructor
      · intro hnone
        by_contra hne
        obtain ⟨contents, hm⟩ := Option.ne_none_iff_exists'.mp (hafter.tracked w (List.mem_of_getElem? hw) hne)
        obtain ⟨faultType, hfault⟩ : ∃ faultType, s.track.getFaultType s.map w.objectstart w.faultyaddr = some faultType := by
          rw [hrep.getFaultType hk, hm, Option.bind_some]
          split
          · exact ⟨_, rfl⟩
          · obtain ⟨overflow, ho⟩ := Option.isSome_iff_exists.mp (isOverflow_isSome s.map w.faultyaddr)
            rw [ho]
            exact ⟨_, rfl⟩
        rw [hfault, Option.bind_some] at hnone
        obtain ⟨type, rfl, -, hprint⟩ := handled_eq_none hnone
        rw [hrep.print hk hm type ?_] at hprint
        · cases hprint
        · rintro rfl
          exact freed_of_useAfterFree h hfault
      · intro hzero
        have hm : memory w.objectstart (history acts.reverse) = none := by
          cases ht : t w.objectstart with
          | none =>
            rw [ht] at hk
            exact hk
          | some o =>
            rw [ht] at hk
            exact absurd hzero hk.1
        rw [hrep.getFaultType hk, hm]
        rfl

/-- What is printed with a fault: the call stack of the last allocation of the object that was traced, or else what was in the
    memory of its track object; and for a use after free the call stack of its last deallocation. -/
theorem printed_eq_history (h : Steps system (initial mem bitmap) acts s) {type : FaultyObjectType} {stack : List Nat}
    {printed : Option Stacks} (ht : s.trap inLibrary callStack = some ((some (.fault i type stack), printed), s')) :
    ∃ w contents, s.findFaultyObject.1 = some i ∧ s.map.wp[i]? = some w ∧
      memory w.objectstart (history acts.reverse) = some contents ∧
      printed = some ⟨(lastStack w.objectstart .malloc (history acts.reverse)).getD contents.allocSite.frames,
        if type = .useAfterFree then lastStack w.objectstart .free (history acts.reverse) else none⟩ ∧
      (type = .useAfterFree → (lastStack w.objectstart .free (history acts.reverse)).isSome = true) := by
  rw [trap_eq] at ht
  split at ht
  · cases ht
  · rename_i k hfound
    split at ht
    · cases ht
    · obtain ⟨w, hw, ht⟩ := Option.bind_eq_some_iff.mp ht
      obtain ⟨faultType, hfault, ht⟩ := Option.bind_eq_some_iff.mp ht
      obtain ⟨rfl, rfl, hprint⟩ := handled_fault ht
      obtain ⟨t, hrep, hk⟩ := (After.of_steps h).known w.objectstart
      have hfreed : type = .useAfterFree → lastOperation w.objectstart (history acts.reverse) = some .free := by
        rintro rfl
        exact freed_of_useAfterFree h hfault
      rw [hrep.getFaultType hk] at hfault
      obtain ⟨contents, hm, -⟩ := Option.bind_eq_some_iff.mp hfault
      rw [if_pos (start_ne_zero hm), hrep.print hk hm type hfreed] at hprint
      exact ⟨w, contents, hfound, hw, hm, (Option.some.inj hprint).symm, fun hu => lastStack_isSome (hfreed hu)⟩

/-- A watchpoint for an overflow of nothing. -/
theorem trap_fails_iff_null : ∃ s, Steps system (initial zeros marked) [.addWatchpoint ⟨0, 0, blank⟩ USER_HEAP_BASE .overflow 0 0] s ∧
    s.trap false [9] = none := by
  have hrun : (([.addWatchpoint ⟨0, 0, blank⟩ USER_HEAP_BASE .overflow 0 0] : List Act).foldlM exec (initial zeros marked)).map
      (fun s => (s.findFaultyObject.1, s.map.wp[0]?)) = some (some 0, some ⟨.overflow, USER_HEAP_BASE, 0, 0⟩) := by decide +kernel
  obtain ⟨s, hs, heq⟩ := Option.map_eq_some_iff.mp hrun
  have hsteps := Steps.of_foldlM (S := system) (f := exec) (fun _ _ _ h => h) hs
  exact ⟨s, hsteps, (trap_fails_iff hsteps false [9]).mpr ⟨rfl, 0, _, congrArg Prod.fst heq, congrArg Prod.snd heq, rfl⟩⟩

/-- The use of the first object after its free is printed with both call stacks. -/
theorem printed_eq_history_freed : ∃ s s' printed, Steps system (initial zeros marked) freed s ∧
    s.trap false [9] = some ((some (.fault 0 .useAfterFree [9]), printed), s') ∧ ∃ callsites, printed = some ⟨callsites, some [5, 6]⟩ := by
  have hrun : ((freed.foldlM exec (initial zeros marked)).bind fun s => (s.trap false [9]).map fun r => (r.1.1, s.map.wp[0]?)) =
      some (some (.fault 0 .useAfterFree [9]), some ⟨.overflow, USER_HEAP_BASE + 32, USER_HEAP_BASE + 16, 0⟩) := by decide +kernel
  obtain ⟨s, hs, htrap⟩ := Option.bind_eq_some_iff.mp hrun
  obtain ⟨⟨⟨report, printed⟩, s'⟩, htrap, heq⟩ := Option.map_eq_some_iff.mp htrap
  have hreport : report = some (.fault 0 .useAfterFree [9]) := congrArg Prod.fst heq
  have hwp : s.map.wp[0]? = some ⟨.overflow, USER_HEAP_BASE + 32, USER_HEAP_BASE + 16, 0⟩ := congrArg Prod.snd heq
  subst hreport
  have hsteps : Steps system (initial zeros marked) freed s := .of_foldlM (f := exec) (fun _ _ _ h => h) hs
  obtain ⟨w, contents, -, hw, -, hprinted, -⟩ := printed_eq_history hsteps htrap
  rw [hwp] at hw
  cases hw
  have hfree : lastStack (USER_HEAP_BASE + 16) .free (history freed.reverse) = some [5, 6] := by decide +kernel
  rw [if_pos rfl, hfree] at hprinted
  exact ⟨s, s', printed, hsteps, htrap, _, hprinted⟩

end Tracer

end DoubleTake
