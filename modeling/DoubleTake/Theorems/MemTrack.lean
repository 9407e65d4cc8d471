import DoubleTake.MemTrack
import DoubleTake.Theorems.CallSite
import DoubleTake.Theorems.HashMap

/-! What is known of a tracked object is what the insertions and the replayed operations have said of it: the fault that is found at
    a trap, and the call stacks that are printed for it, are read off their history. -/

namespace DoubleTake

namespace CallSite

variable {s : CallSite} {addr : List Nat} {i : Nat}

theorem saveLoop_depth : (s.saveLoop i addr).depth = s.depth := by
  induction addr generalizing s i with
  | nil => rfl
  | cons a addr ih => exact ih

/-- What is printed for a call stack that was saved is the call stack. -/
theorem frames_save (s : CallSite) (addr : List Nat) : (s.save addr).frames = addr := by
  have hdepth : (s.save addr).depth = addr.length := saveLoop_depth
  rw [frames, hdepth]
  refine List.ext_getElem (by rw [List.length_map, List.length_range]) fun i _ hi => ?_
  rw [List.getElem_map, List.getElem_range, save_callsite, List.getElem?_eq_getElem hi]
  rfl

/-- The last call stack that was saved is printed; `s` is what was there before. -/
theorem frames_foldr (s : CallSite) (past : List (List Nat)) :
    (past.foldr (fun callsites site => site.save callsites) s).frames = past.head?.getD s.frames := by
  cases past with
  | nil => rfl
  | cons callsites past => exact frames_save ..

end CallSite

namespace MemTrack

open HashMap

variable {s s' : MemTrack} {fresh : Fresh} {start size a : Nat} {type : ErrorType} {op : MemTrackType} {callsites : List Nat}

/-! ### The table of the objects -/

/-- The track objects by the start of their object. -/
abbrev Table := Nat → Option TrackObject

def Table.insert (t : Table) (contents : TrackObject) (start size : Nat) (type : ErrorType) : Option Table :=
  if start = 0 ∧ type = .fault .overflow then some t
  else
    let o := match t start with
      | some o => o.setup start size type true
      | none => contents.setup start size type false
    o.map fun o => Function.update t start (some o)

def Table.check (t : Table) (start size : Nat) (op : MemTrackType) (callsites : List Nat) : Table :=
  match t start with
  | none => t
  | some o => if o.matchesSize size then Function.update t start (some (o.saveCallsite size op callsites)) else t

/-- The map finds the objects of the table, and no two of them in one place. -/
structure Finds (map : HashMap Nat Nat) (objects : Nat → Option TrackObject) (t : Table) (m : Nat → Nat → Option Nat) : Prop where
  maps : Maps map m
  table : ∀ p, t p = (m p KEYLEN).bind objects
  placed : ∀ p b, m p KEYLEN = some b → (objects b).isSome
  apart : ∀ p q b, m p KEYLEN = some b → m q KEYLEN = some b → p = q

/-- The map, once there is one, represents the table. -/
def Represents (s : MemTrack) (t : Table) : Prop :=
  match s.trackMap with
  | none => t = fun _ => none
  | some map => ∃ lists m, Lists map lists ∧ Finds map s.objects t m

theorem finds_initialized (objects : Nat → Option TrackObject) :
    ∃ lists m, Lists initialized lists ∧ Finds initialized objects (fun _ => none) m := by
  refine ⟨_, fun _ _ => none, .of_init hashAddr (by decide), ⟨fun p n b c hb => ?_, fun p n v => ⟨fun h => ?_, fun h => ?_⟩⟩,
    fun p => rfl, fun p b h => ?_, fun p q b h => ?_⟩
  · cases hb
  · cases h
  · obtain ⟨b, hb⟩ := h
    cases hb
  · cases h
  · cases h

/-- The map that an insertion works on. -/
theorem Represents.getD {t : Table} (h : Represents s t) :
    ∃ lists m, Lists (s.trackMap.getD initialized) lists ∧ Finds (s.trackMap.getD initialized) s.objects t m := by
  rw [Represents] at h
  cases hmap : s.trackMap with
  | none =>
    rw [hmap] at h
    rw [h]
    exact finds_initialized s.objects
  | some map =>
    rw [hmap] at h
    exact h

/-- An object that is not in the table is looked up in vain, one of the table is found. -/
theorem Finds.lookup {map : HashMap Nat Nat} {t : Table} {m : Nat → Nat → Option Nat} {lists : Nat → List Nat}
    (h : Finds map s.objects t m) (hl : Lists map lists) (start : Nat) :
    t start = none ∧ m start KEYLEN = none ∧ s.lookup map start = some none ∨
    ∃ b o, t start = some o ∧ m start KEYLEN = some b ∧ s.objects b = some o ∧ s.lookup map start = some (some (b, o)) := by
  rw [h.table, MemTrack.lookup, h.maps.find hl]
  cases hm : m start KEYLEN with
  | none => exact .inl ⟨rfl, rfl, rfl⟩
  | some b =>
    obtain ⟨o, ho⟩ := Option.isSome_iff_exists.mp (h.placed start b hm)
    refine .inr ⟨b, o, ho, rfl, ho, ?_⟩
    show (s.objects b).map _ = _
    rw [ho]
    rfl

/-- A track object is changed in place. -/
theorem Finds.change {map : HashMap Nat Nat} {objects : Nat → Option TrackObject} {t : Table} {m : Nat → Nat → Option Nat} {b : Nat}
    (h : Finds map objects t m) (hb : m start KEYLEN = some b) (o : TrackObject) :
    Finds map (Function.update objects b (some o)) (Function.update t start (some o)) m := by
  refine ⟨h.maps, fun p => ?_, fun p c hc => ?_, h.apart⟩
  · by_cases hp : p = start
    · subst hp
      rw [Function.update_self, hb, Option.bind_some, Function.update_self]
    · rw [Function.update_of_ne hp, h.table]
      cases hm : m p KEYLEN with
      | none => rfl
      | some c =>
        have hne : c ≠ b := by
          rintro rfl
          exact hp (h.apart _ _ c hm hb)
        rw [Option.bind_some, Option.bind_some, Function.update_of_ne hne]
  · by_cases hcb : c = b
    · rw [hcb, Function.update_self]
      rfl
    · rw [Function.update_of_ne hcb]
      exact h.placed p c hc

/-- A track object is new. -/
theorem Finds.add {map : HashMap Nat Nat} {objects : Nat → Option TrackObject} {t : Table} {m : Nat → Nat → Option Nat} {e b : Nat}
    (h : Finds map objects t m) (he : map.entries e = none) (hm : m start KEYLEN = none) (hb : objects b = none) (o : TrackObject) :
    Finds (map.insert e start KEYLEN b) (Function.update objects b (some o)) (Function.update t start (some o))
      fun p n => if p = start ∧ n = KEYLEN then some b else m p n := by
  have hold : ∀ {p c}, p ≠ start → (if p = start ∧ KEYLEN = KEYLEN then some b else m p KEYLEN) = some c →
      m p KEYLEN = some c ∧ c ≠ b := by
    intro p c hp hc
    rw [if_neg fun hand => hp hand.1] at hc
    refine ⟨hc, ?_⟩
    rintro rfl
    have hsome := h.placed p c hc
    rw [hb] at hsome
    cases hsome
  refine ⟨h.maps.insert he hm, fun p => ?_, fun p c hc => ?_, fun p q c hp hq => ?_⟩
  · by_cases hp : p = start
    · subst hp
      rw [Function.update_self, if_pos ⟨rfl, rfl⟩, Option.bind_some, Function.update_self]
    · rw [Function.update_of_ne hp, if_neg fun hand => hp hand.1, h.table]
      cases hmp : m p KEYLEN with
      | none => rfl
      | some c =>
        have hne : c ≠ b := (hold hp (by rw [if_neg fun hand => hp hand.1]; exact hmp)).2
        rw [Option.bind_some, Option.bind_some, Function.update_of_ne hne]
  · by_cases hp : p = start
    · rw [if_pos ⟨hp, rfl⟩] at hc
      cases hc
      rw [Function.update_self]
      rfl
    · obtain ⟨hc, hne⟩ := hold hp hc
      rw [Function.update_of_ne hne]
      exact h.placed p c hc
  · by_cases hps : p = start
    · by_cases hqs : q = start
      · rw [hps, hqs]
      · rw [if_pos ⟨hps, rfl⟩] at hp
        cases hp
        exact absurd rfl (hold hqs hq).2
    · by_cases hqs : q = start
      · rw [if_pos ⟨hqs, rfl⟩] at hq
        cases hq
        exact absurd rfl (hold hps hp).2
      · exact h.apart p q c (hold hps hp).1 (hold hqs hq).1

/-- An insertion does to the map what it does to the table. -/
theorem Represents.insert {t : Table} (h : Represents s t) (hs : s.insert fresh start size type = some s') :
    ∃ t', t.insert fresh.contents start size type = some t' ∧ Represents s' t' := by
  obtain ⟨lists, m, hl, hf⟩ := h.getD
  rw [MemTrack.insert] at hs
  rw [Table.insert]
  split at hs
  · rename_i hignored
    cases hs
    rw [if_pos hignored]
    exact ⟨t, rfl, lists, m, hl, hf⟩
  · rename_i hignored
    rw [hf.maps.find hl, Option.bind_eq_bind, Option.bind_some] at hs
    rw [if_neg hignored]
    rcases hf.lookup hl start with ⟨ht, hm, -⟩ | ⟨b, o, ht, hm, hb, -⟩
    · rw [hm, insertFound] at hs
      rw [ht]
      split at hs
      · rename_i halloc
        rw [Option.bind_eq_bind] at hs
        obtain ⟨o, hsetup, heq⟩ := Option.bind_eq_some_iff.mp hs
        cases heq
        rw [allocates, Bool.and_eq_true, Option.isNone_iff_eq_none] at halloc
        have hadd := hf.add (allocates_iff.mp halloc.1).1 hm halloc.2 o
        refine ⟨Function.update t start (some o), ?_, _, _, hl.insert halloc.1, hadd⟩
        dsimp only
        rw [hsetup, Option.map_some]
      · cases hs
    · rw [hm, insertFound, hb, Option.bind_eq_bind, Option.bind_some] at hs
      rw [ht]
      obtain ⟨o', hsetup, heq⟩ := Option.bind_eq_some_iff.mp hs
      cases heq
      refine ⟨Function.update t start (some o'), ?_, lists, m, hl, hf.change hm o'⟩
      dsimp only
      rw [hsetup, Option.map_some]

/-- A replayed operation always goes through, and does to the map what it does to the table. -/
theorem Represents.check {t : Table} (h : Represents s t) (start size : Nat) (op : MemTrackType) (callsites : List Nat) :
    ∃ r, s.check start size op callsites = some r ∧ Represents r.2 (t.check start size op callsites) := by
  rw [MemTrack.check]
  cases hmap : s.trackMap with
  | none =>
    have ht : t = fun _ => none := by rwa [Represents, hmap] at h
    rw [ht] at h ⊢
    exact ⟨_, rfl, h⟩
  | some map =>
    have hrep := h
    rw [Represents, hmap] at hrep
    obtain ⟨lists, m, hl, hf⟩ := hrep
    dsimp only
    rw [Table.check]
    rcases hf.lookup hl start with ⟨ht, hm, hlookup⟩ | ⟨b, o, ht, hm, hb, hlookup⟩
    · rw [hlookup, ht]
      exact ⟨_, rfl, h⟩
    · rw [hlookup, ht, Option.bind_eq_bind, Option.bind_some]
      dsimp only
      split
      · exact ⟨_, rfl, lists, m, hl, hf.change hm _⟩
      · exact ⟨_, rfl, h⟩

theorem Represents.lookup_none {t : Table} {map : HashMap Nat Nat} (h : Represents s t) (hmap : s.trackMap = some map)
    (ht : t start = none) : s.lookup map start = some none := by
  rw [Represents, hmap] at h
  obtain ⟨lists, m, hl, hf⟩ := h
  rcases hf.lookup hl start with ⟨-, -, hlookup⟩ | ⟨b, o, ho, -⟩
  · exact hlookup
  · rw [ht] at ho
    cases ho

theorem Represents.lookup_some {t : Table} {o : TrackObject} (h : Represents s t) (ht : t start = some o) :
    ∃ map b, s.trackMap = some map ∧ s.lookup map start = some (some (b, o)) := by
  rw [Represents] at h
  cases hmap : s.trackMap with
  | none =>
    rw [hmap] at h
    rw [h] at ht
    cases ht
  | some map =>
    rw [hmap] at h
    obtain ⟨lists, m, hl, hf⟩ := h
    rcases hf.lookup hl start with ⟨hnone, -⟩ | ⟨b, o', ho, -, -, hlookup⟩
    · rw [ht] at hnone
      cases hnone
    · rw [ht] at ho
      cases ho
      exact ⟨map, b, rfl, hlookup⟩

/-! ### The history of an object -/

/-- The insertions, with the memory that a new track object would get, and the replayed operations. -/
inductive Event where
  | insert (start size : Nat) (type : ErrorType) (contents : TrackObject)
  | check (start size : Nat) (op : MemTrackType) (callsites : List Nat)

/-- The table after the events, the latest of which comes first. -/
def tableOf : List Event → Option Table
  | [] => some fun _ => none
  | .insert start size type contents :: past => (tableOf past).bind fun t => t.insert contents start size type
  | .check start size op callsites :: past => (tableOf past).map fun t => t.check start size op callsites

/-- What was in the memory of the track object before its object was inserted. -/
def memory (start : Nat) : List Event → Option TrackObject
  | [] => none
  | .insert p _ _ contents :: past => memory start past <|> if p = start ∧ start ≠ 0 then some contents else none
  | .check .. :: past => memory start past

/-- The object was inserted for the error. -/
def inserted (start : Nat) (type : ErrorType) : List Event → Bool
  | [] => false
  | .insert p _ t _ :: past => decide (p = start ∧ t = type) || inserted start type past
  | .check .. :: past => inserted start type past

/-- The size that the object was inserted with last. -/
def insertedSize (start : Nat) : List Event → Option Nat
  | [] => none
  | .insert p size _ _ :: past => if p = start then some size else insertedSize start past
  | .check .. :: past => insertedSize start past

/-- An operation with the size is traced. -/
def accepts (start size : Nat) (past : List Event) : Bool :=
  inserted start (.fault .useAfterFree) past || inserted start (.fault .overflow) past ||
    (inserted start .leak past && insertedSize start past == some size)

/-- The last operation that was traced since the last insertion. -/
def lastOperation (start : Nat) : List Event → Option MemTrackType
  | [] => none
  | .insert p _ _ _ :: past => if p = start then none else lastOperation start past
  | .check p size op _ :: past => if p = start ∧ accepts start size past = true then some op else lastOperation start past

/-- The sizes and call stacks of the operations of one kind that were traced. -/
def traced (start : Nat) (op : MemTrackType) : List Event → List (Nat × List Nat)
  | [] => []
  | .insert .. :: past => traced start op past
  | .check p size o callsites :: past =>
    if p = start ∧ o = op ∧ accepts start size past = true then (size, callsites) :: traced start op past
    else traced start op past

variable {contents o o' : TrackObject} {past : List Event}

/-- A track object, as its history has it. -/
structure Reads (start : Nat) (past : List Event) (contents o : TrackObject) : Prop where
  has : ∀ type, o.has type = inserted start type past
  address : o.start = start
  size : insertedSize start past = some o.objectSize
  last : o.tracedOps = ((lastOperation start past).map MemTrackType.code).getD 0
  current : o.currentObjectSize = ((traced start .malloc past).head?.map Prod.fst).getD contents.currentObjectSize
  alloc : o.allocSite = ((traced start .malloc past).map Prod.snd).foldr (fun callsites site => site.save callsites) contents.allocSite
  free : o.freeSite = ((traced start .free past).map Prod.snd).foldr (fun callsites site => site.save callsites) contents.freeSite

theorem setup_spec {exists' : Bool} (h : o.setup start size type exists' = some o') : start ≠ 0 ∧ o'.start = start ∧
    o'.objectSize = size ∧ o'.objecttype = (if exists' then o.objecttype ||| type.code else type.code) ∧ o'.tracedOps = 0 ∧
    o'.currentObjectSize = o.currentObjectSize ∧ o'.allocSite = o.allocSite ∧ o'.freeSite = o.freeSite := by
  rw [TrackObject.setup] at h
  split at h
  · cases h
  · rename_i hstart
    cases h
    refine ⟨hstart, ?_⟩
    cases exists' <;> cases type with
      | leak => exact ⟨rfl, rfl, rfl, rfl, rfl, rfl, rfl⟩
      | fault type => cases type <;> exact ⟨rfl, rfl, rfl, rfl, rfl, rfl, rfl⟩

/-- Two errors have no bit in common. -/
theorem code_and_code (type type' : ErrorType) : (type.code &&& type'.code != 0) = decide (type = type') := by
  rcases type with (_ | _) | _ <;> rcases type' with (_ | _) | _ <;> rfl

theorem has_or (x : Nat) (type type' : ErrorType) :
    ((x ||| type.code) &&& type'.code != 0) = (decide (type = type') || (x &&& type'.code != 0)) := by
  rw [← code_and_code, Nat.and_or_distrib_right, Bool.eq_iff_iff, Bool.or_eq_true, bne_iff_ne, bne_iff_ne, bne_iff_ne, ne_eq,
    Nat.or_eq_zero_iff, not_and_or, or_comm]

/-- What is not tracked has no history; a null pointer may have been ignored. -/
theorem nothing_of_memory (hstart : start ≠ 0) (h : memory start past = none) :
    (∀ type, inserted start type past = false) ∧ ∀ op, traced start op past = [] := by
  induction past with
  | nil => exact ⟨fun _ => rfl, fun _ => rfl⟩
  | cons e past ih =>
    cases e with
    | insert p size type contents =>
      rw [memory] at h
      have hp : p ≠ start := by
        rintro rfl
        rw [if_pos ⟨rfl, hstart⟩] at h
        cases hm : memory p past <;> rw [hm] at h <;> cases h
      rw [if_neg fun hand => hp hand.1] at h
      rw [Option.orElse_eq_orElse, Option.orElse_eq_or, Option.or_none] at h
      obtain ⟨hins, htraced⟩ := ih h
      refine ⟨fun type' => ?_, htraced⟩
      rw [inserted, hins, decide_eq_false fun hand => hp hand.1]
      rfl
    | check p size op callsites =>
      obtain ⟨hins, htraced⟩ := ih h
      have haccepts : ∀ hs : p = start, accepts start size past = false := by
        intro _
        rw [accepts, hins, hins, hins]
        rfl
      refine ⟨hins, fun op' => ?_⟩
      rw [traced, if_neg fun hand => Bool.noConfusion ((haccepts hand.1).symm.trans hand.2.2)]
      exact htraced op'

/-- An event at another object changes nothing. -/
theorem Reads.insert_other {p : Nat} (h : Reads start past contents o) (hp : p ≠ start) (c : TrackObject) :
    Reads start (.insert p size type c :: past) contents o := by
  have hnot : ∀ {q : Prop}, ¬ (p = start ∧ q) := fun hand => hp hand.1
  refine ⟨fun type' => ?_, h.address, ?_, ?_, h.current, h.alloc, h.free⟩
  · rw [inserted, decide_eq_false hnot]
    exact h.has type'
  · rw [insertedSize, if_neg hp]
    exact h.size
  · rw [lastOperation, if_neg hp]
    exact h.last

theorem Reads.check_other {p : Nat} (h : Reads start past contents o) (hp : p ≠ start) :
    Reads start (.check p size op callsites :: past) contents o := by
  have hnot : ∀ {q : Prop}, ¬ (p = start ∧ q) := fun hand => hp hand.1
  refine ⟨h.has, h.address, h.size, ?_, ?_, ?_, ?_⟩
  · rw [lastOperation, if_neg hnot]
    exact h.last
  · rw [traced, if_neg hnot]
    exact h.current
  · rw [traced, if_neg hnot]
    exact h.alloc
  · rw [traced, if_neg hnot]
    exact h.free

/-- A first insertion, into any memory. -/
theorem Reads.new (hm : memory start past = none) (hs : contents.setup start size type false = some o) :
    Reads start (.insert start size type contents :: past) contents o := by
  obtain ⟨hstart, haddr, hsize, htype, hops, hcurrent, halloc, hfree⟩ := setup_spec hs
  obtain ⟨hins, htraced⟩ := nothing_of_memory hstart hm
  rw [if_neg Bool.false_ne_true] at htype
  refine ⟨fun type' => ?_, haddr, ?_, ?_, ?_, ?_, ?_⟩
  · rw [TrackObject.has, htype, code_and_code, inserted, hins, Bool.or_false]
    exact decide_eq_decide.mpr (and_iff_right rfl).symm
  · rw [insertedSize, if_pos rfl, hsize]
  · rw [lastOperation, if_pos rfl, hops]
    rfl
  · rw [traced, htraced, hcurrent]
    rfl
  · rw [traced, htraced, halloc]
    rfl
  · rw [traced, htraced, hfree]
    rfl

/-- Another insertion: the error is added, and no operation is traced since. -/
theorem Reads.again (h : Reads start past contents o) (hs : o.setup start size type true = some o') (c : TrackObject) :
    Reads start (.insert start size type c :: past) contents o' := by
  obtain ⟨-, haddr, hsize, htype, hops, hcurrent, halloc, hfree⟩ := setup_spec hs
  rw [if_pos rfl] at htype
  refine ⟨fun type' => ?_, haddr, ?_, ?_, ?_, ?_, ?_⟩
  · rw [TrackObject.has, htype, has_or, inserted, ← h.has]
    exact congrArg (· || _) (decide_eq_decide.mpr (and_iff_right rfl).symm)
  · rw [insertedSize, if_pos rfl, hsize]
  · rw [lastOperation, if_pos rfl, hops]
    rfl
  · rw [hcurrent]
    exact h.current
  · rw [halloc]
    exact h.alloc
  · rw [hfree]
    exact h.free

theorem Reads.matchesSize (h : Reads start past contents o) (size : Nat) : o.matchesSize size = accepts start size past := by
  rw [TrackObject.matchesSize, TrackObject.hasUseafterfree, TrackObject.hasOverflow, TrackObject.hasLeak, h.has, h.has, h.has,
    accepts, h.size]
  rfl

/-- An operation that is traced. -/
theorem Reads.save (h : Reads start past contents o) (ha : accepts start size past = true) :
    Reads start (.check start size op callsites :: past) contents (o.saveCallsite size op callsites) := by
  have hlast : lastOperation start (.check start size op callsites :: past) = some op := by rw [lastOperation, if_pos ⟨rfl, ha⟩]
  have hsame : traced start op (.check start size op callsites :: past) = (size, callsites) :: traced start op past := by
    rw [traced, if_pos ⟨rfl, rfl, ha⟩]
  have hother : ∀ op', op ≠ op' → traced start op' (.check start size op callsites :: past) = traced start op' past := by
    intro op' hne
    rw [traced, if_neg fun hand => hne hand.2.1]
  cases op with
  | malloc =>
    refine ⟨h.has, h.address, h.size, by rw [hlast]; rfl, by rw [hsame]; rfl, ?_, ?_⟩
    · rw [hsame, List.map_cons, List.foldr_cons, ← h.alloc]
      rfl
    · rw [hother .free fun hne => by cases hne]
      exact h.free
  | free =>
    refine ⟨h.has, h.address, h.size, by rw [hlast]; rfl, ?_, ?_, ?_⟩
    · rw [hother .malloc fun hne => by cases hne]
      exact h.current
    · rw [hother .malloc fun hne => by cases hne]
      exact h.alloc
    · rw [hsame, List.map_cons, List.foldr_cons, ← h.free]
      rfl

/-- An operation that is not traced. -/
theorem Reads.reject (h : Reads start past contents o) (ha : accepts start size past = false) :
    Reads start (.check start size op callsites :: past) contents o := by
  have hnot : ∀ {q r : Prop}, ¬ (q ∧ r ∧ accepts start size past = true) := fun hand => Bool.noConfusion (ha.symm.trans hand.2.2)
  refine ⟨h.has, h.address, h.size, ?_, ?_, ?_, ?_⟩
  · rw [lastOperation, if_neg fun hand => Bool.noConfusion (ha.symm.trans hand.2)]
    exact h.last
  · rw [traced, if_neg hnot]
    exact h.current
  · rw [traced, if_neg hnot]
    exact h.alloc
  · rw [traced, if_neg hnot]
    exact h.free

/-- The entry of the table for an object, by its history. -/
def Known (start : Nat) (past : List Event) : Option TrackObject → Prop
  | none => memory start past = none
  | some o => start ≠ 0 ∧ ∃ contents, memory start past = some contents ∧ Reads start past contents o

theorem memory_insert_of_ne {p : Nat} (hp : p ≠ start) (c : TrackObject) :
    memory start (.insert p size type c :: past) = memory start past := by
  rw [memory, if_neg fun hand => hp hand.1]
  cases memory start past <;> rfl

theorem memory_insert_of_some (c : TrackObject) {p : Nat} (h : memory start past = some contents) :
    memory start (.insert p size type c :: past) = some contents := by
  rw [memory, h]
  rfl

theorem Table.insert_of_ne {t t' : Table} {p : Nat} {c : TrackObject} (h : t.insert c p size type = some t') (hp : p ≠ start) :
    t' start = t start := by
  rw [Table.insert] at h
  split at h
  · cases h
    rfl
  · obtain ⟨o, -, rfl⟩ := Option.map_eq_some_iff.mp h
    exact Function.update_of_ne (fun heq => hp heq.symm) _ _

theorem Table.check_of_ne {t : Table} {p : Nat} (hp : p ≠ start) : t.check p size op callsites start = t start := by
  rw [Table.check]
  cases t p with
  | none => rfl
  | some o =>
    dsimp only
    split
    · exact Function.update_of_ne (fun heq => hp heq.symm) _ _
    · rfl

theorem Known.insert_self {t t' : Table} (h : Known start past (t start)) (c : TrackObject)
    (ht : t.insert c start size type = some t') : Known start (.insert start size type c :: past) (t' start) := by
  rw [Table.insert] at ht
  split at ht
  · rename_i hignored
    cases ht
    cases hobj : t start with
    | none =>
      rw [hobj] at h
      rw [Known, memory, show memory start past = none from h, if_neg fun hand => hand.2 hignored.1]
      rfl
    | some o =>
      rw [hobj] at h
      exact absurd hignored.1 h.1
  · obtain ⟨o, ho, rfl⟩ := Option.map_eq_some_iff.mp ht
    rw [Function.update_self]
    cases hobj : t start with
    | none =>
      rw [hobj] at h ho
      have hstart := (setup_spec ho).1
      refine ⟨hstart, c, ?_, .new h ho⟩
      rw [memory, show memory start past = none from h, if_pos ⟨rfl, hstart⟩]
      rfl
    | some o₀ =>
      rw [hobj] at h ho
      obtain ⟨hstart, contents, hm, hreads⟩ := h
      exact ⟨hstart, contents, memory_insert_of_some c hm, hreads.again ho c⟩

theorem Known.insert_other {p : Nat} {o : Option TrackObject} (h : Known start past o) (hp : p ≠ start) (c : TrackObject) :
    Known start (.insert p size type c :: past) o := by
  cases o with
  | none => exact (memory_insert_of_ne hp c).trans h
  | some o =>
    obtain ⟨hstart, contents, hm, hreads⟩ := h
    exact ⟨hstart, contents, memory_insert_of_some c hm, hreads.insert_other hp c⟩

theorem Known.check_self {t : Table} (h : Known start past (t start)) (size : Nat) (op : MemTrackType) (callsites : List Nat) :
    Known start (.check start size op callsites :: past) (t.check start size op callsites start) := by
  rw [Table.check]
  cases hobj : t start with
  | none =>
    rw [hobj] at h
    dsimp only
    rw [hobj]
    exact h
  | some o =>
    rw [hobj] at h
    obtain ⟨hstart, contents, hm, hreads⟩ := h
    dsimp only
    split
    · rename_i hmatch
      rw [Function.update_self]
      exact ⟨hstart, contents, hm, hreads.save ((hreads.matchesSize size).symm.trans hmatch)⟩
    · rename_i hmatch
      rw [hobj]
      refine ⟨hstart, contents, hm, hreads.reject ?_⟩
      rw [← hreads.matchesSize]
      exact Bool.eq_false_iff.mpr hmatch

theorem Known.check_other {p : Nat} {o : Option TrackObject} (h : Known start past o) (hp : p ≠ start) :
    Known start (.check p size op callsites :: past) o := by
  cases o with
  | none => exact h
  | some o =>
    obtain ⟨hstart, contents, hm, hreads⟩ := h
    exact ⟨hstart, contents, hm, hreads.check_other hp⟩

/-- A null pointer is never tracked. -/
theorem start_ne_zero (h : memory start past = some contents) : start ≠ 0 := by
  rintro rfl
  induction past with
  | nil => cases h
  | cons e past ih =>
    cases e with
    | insert p size type c =>
      rw [memory, if_neg fun hand => hand.2 rfl, Option.orElse_eq_orElse, Option.orElse_eq_or, Option.or_none] at h
      exact ih h
    | check => exact ih h

/-- The table holds what the histories of the objects say. -/
theorem known_of_table {t : Table} (h : tableOf past = some t) (start : Nat) : Known start past (t start) := by
  induction past generalizing t with
  | nil =>
    cases h
    rfl
  | cons e past ih =>
    cases e with
    | insert p size type c =>
      rw [tableOf] at h
      obtain ⟨t₀, ht₀, h⟩ := Option.bind_eq_some_iff.mp h
      by_cases hp : p = start
      · subst hp
        exact (ih ht₀).insert_self c h
      · rw [Table.insert_of_ne h hp]
        exact (ih ht₀).insert_other hp c
    | check p size op callsites =>
      rw [tableOf] at h
      obtain ⟨t₀, ht₀, rfl⟩ := Option.map_eq_some_iff.mp h
      by_cases hp : p = start
      · subst hp
        exact (ih ht₀).check_self size op callsites
      · rw [Table.check_of_ne hp]
        exact (ih ht₀).check_other hp

/-! ### What is found and printed for an object -/

/-- The size of the last allocation that was traced, or what was in the memory. -/
def blockSize (start : Nat) (past : List Event) (contents : TrackObject) : Nat :=
  ((traced start .malloc past).head?.map Prod.fst).getD contents.currentObjectSize

/-- The call stack of the last operation of a kind that was traced. -/
def lastStack (start : Nat) (op : MemTrackType) (past : List Event) : Option (List Nat) := (traced start op past).head?.map Prod.snd

theorem Reads.isFreed (h : Reads start past contents o) : o.isFreed = decide (lastOperation start past = some .free) := by
  rw [TrackObject.isFreed, h.last]
  rcases lastOperation start past with _ | _ | _ <;> rfl

/-- The last operation is the last one of its kind. -/
theorem lastStack_isSome (h : lastOperation start past = some op) : (lastStack start op past).isSome = true := by
  induction past with
  | nil => cases h
  | cons e past ih =>
    cases e with
    | insert p size type c =>
      rw [lastOperation] at h
      split at h
      · cases h
      · exact ih h
    | check p size o callsites =>
      rw [lastOperation] at h
      rw [lastStack, traced]
      split at h
      · rename_i hand
        cases h
        rw [if_pos ⟨hand.1, rfl, hand.2⟩]
        rfl
      · rename_i hnot
        rw [if_neg fun hand => hnot ⟨hand.1, hand.2.2⟩]
        exact ih h

theorem Represents.getFaultType {t : Table} {map : SentinelMap} (h : Represents s t) (hk : Known start past (t start)) (a : Nat) :
    s.getFaultType map start a = (memory start past).bind fun contents =>
      if lastOperation start past = some .free then
        some (if start ≤ a ∧ a ≤ (start + blockSize start past contents) % 2 ^ 64 then some .useAfterFree else none)
      else (map.isOverflow a).map fun overflow => if overflow then some .overflow else none := by
  rw [MemTrack.getFaultType, Option.bind_eq_bind]
  cases ht : t start with
  | none =>
    rw [ht] at hk
    rw [show memory start past = none from hk, Option.bind_none]
    refine Option.bind_eq_none_iff.mpr fun trackMap hmap => ?_
    rw [h.lookup_none hmap ht]
    rfl
  | some o =>
    rw [ht] at hk
    obtain ⟨-, contents, hm, hreads⟩ := hk
    obtain ⟨trackMap, b, hmap, hlookup⟩ := h.lookup_some ht
    rw [hmap, Option.bind_some, hlookup, Option.bind_eq_bind, Option.bind_some, hm, Option.bind_some]
    dsimp only
    rw [hreads.isFreed, TrackObject.isInsideObject, hreads.address, hreads.current]
    simp only [decide_eq_true_eq]
    rfl

theorem Represents.print {t : Table} (h : Represents s t) (hk : Known start past (t start)) (hm : memory start past = some contents)
    (type : FaultyObjectType) (hfree : type = .useAfterFree → lastOperation start past = some .free) :
    s.print start type = some (some ⟨(lastStack start .malloc past).getD contents.allocSite.frames,
      if type = .useAfterFree then lastStack start .free past else none⟩) := by
  rw [MemTrack.print, Option.bind_eq_bind]
  cases ht : t start with
  | none =>
    rw [ht] at hk
    rw [show memory start past = none from hk] at hm
    cases hm
  | some o =>
    rw [ht] at hk
    obtain ⟨-, contents', hm', hreads⟩ := hk
    rw [hm] at hm'
    cases hm'
    have halloc : o.allocSite.frames = (lastStack start .malloc past).getD contents.allocSite.frames := by
      rw [hreads.alloc, CallSite.frames_foldr, List.head?_map]
      rfl
    obtain ⟨trackMap, b, hmap, hlookup⟩ := h.lookup_some ht
    rw [hmap, Option.bind_some, hlookup, Option.bind_eq_bind, Option.bind_some]
    cases type with
    | overflow =>
      dsimp only
      rw [halloc]
      rfl
    | useAfterFree =>
      have hlast := hfree rfl
      obtain ⟨callsites, hstack⟩ := Option.isSome_iff_exists.mp (lastStack_isSome hlast)
      have hfreed : o.freeSite.frames = callsites := by
        rw [hreads.free, CallSite.frames_foldr, List.head?_map, show Option.map Prod.snd _ = some callsites from hstack]
        rfl
      dsimp only
      rw [hreads.isFreed, decide_eq_true hlast, halloc, hfreed, if_pos rfl, hstack]
      rfl

/-- What a replayed operation prints: an object that has leaked, if the operation is traced. -/
theorem Represents.check_report {t : Table} (h : Represents s t) (hk : Known start past (t start)) (size : Nat) (op : MemTrackType)
    (callsites : List Nat) : (s.check start size op callsites).map Prod.fst = some ((memory start past).bind fun _ =>
      if accepts start size past = true ∧ inserted start .leak past = true then
        (insertedSize start past).map fun leaked => ⟨start, leaked, callsites⟩
      else none) := by
  rw [MemTrack.check]
  cases ht : t start with
  | none =>
    rw [ht] at hk
    rw [show memory start past = none from hk, Option.bind_none]
    cases hmap : s.trackMap with
    | none => rfl
    | some map =>
      dsimp only
      rw [h.lookup_none hmap ht]
      rfl
  | some o =>
    rw [ht] at hk
    obtain ⟨-, contents, hm, hreads⟩ := hk
    obtain ⟨map, b, hmap, hlookup⟩ := h.lookup_some ht
    rw [hmap, hm]
    dsimp only
    rw [hlookup, Option.bind_eq_bind, Option.bind_some, Option.bind_some]
    dsimp only
    rw [hreads.matchesSize, TrackObject.hasLeak, hreads.has]
    by_cases ha : accepts start size past = true
    · rw [if_pos ha, hreads.size, hreads.address]
      simp only [ha, true_and]
      rfl
    · rw [if_neg ha, if_neg fun hand => ha hand.1]
      rfl

end MemTrack

end DoubleTake
