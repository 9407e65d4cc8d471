import DoubleTake.Theorems.Quarantine
import DoubleTake.Theorems.Watchpoints

/-! The canary checks of the quarantine: the final check over a whole ring, and the loop that evicts from it. -/

namespace DoubleTake
namespace Quarantine

variable {H : Type} {ops : QuarantineHeap H} {q : Quarantine}

/-! ### The final check -/

/-- A heap with the list of the objects that have been checked in it. -/
def logged (ops : QuarantineHeap H) : QuarantineHeap (H × List FreeObject) where
  markFreeObject c ptr size := (ops.markFreeObject c.1 ptr size, c.2)
  hasUsageAfterFree c o := ((ops.hasUsageAfterFree c.1 o).1, (ops.hasUsageAfterFree c.1 o).2, c.2 ++ [o])
  realfree c ptr := do
    let h ← ops.realfree c.1 ptr
    .ok (h, c.2)
  rollback c := do
    let h ← ops.rollback c.1
    .ok (h, c.2)

/-- What is checked of a list of objects when `n` damaged ones have been found before: all up to the fourth damaged one. -/
def inspected (damaged : FreeObject → Bool) : Nat → List FreeObject → List FreeObject
  | _, [] => []
  | n, o :: os =>
    if damaged o then
      if n + 1 = 4 then [o] else o :: inspected damaged (n + 1) os
    else o :: inspected damaged n os

theorem inspected_cases (damaged : FreeObject → Bool) {n : Nat} (hn : n < 4) (os : List FreeObject) :
    inspected damaged n os = os ∨ ∃ before o after, os = before ++ o :: after ∧ inspected damaged n os = before ++ [o] ∧
      damaged o = true ∧ n + before.countP damaged = 3 := by
  induction os generalizing n with
  | nil => exact .inl rfl
  | cons o os ih =>
    rw [inspected]
    by_cases hd : damaged o = true
    · rw [if_pos hd]
      by_cases h4 : n + 1 = 4
      · rw [if_pos h4]
        exact .inr ⟨[], o, os, rfl, rfl, hd, by rw [List.countP_nil]; omega⟩
      · rw [if_neg h4]
        rcases @ih (n + 1) (by omega) with hall | ⟨before, p, after, hos, hin, hp, hcount⟩
        · exact .inl (by rw [hall])
        · refine .inr ⟨o :: before, p, after, by rw [hos, List.cons_append], by rw [hin, List.cons_append], hp, ?_⟩
          rw [List.countP_cons_of_pos hd]
          omega
    · rw [if_neg hd]
      rcases ih hn with hall | ⟨before, p, after, hos, hin, hp, hcount⟩
      · exact .inl (by rw [hall])
      · refine .inr ⟨o :: before, p, after, by rw [hos, List.cons_append], by rw [hin, List.cons_append], hp, ?_⟩
        rw [List.countP_cons_of_neg hd]
        exact hcount

/-- The ring without its oldest object. -/
def pop (q : Quarantine) : Quarantine := { q with LRIndex := incrIndex q.LRIndex }

/-- A round of the loop of `finalUAFCheck`. -/
theorem finalUAFCheckLoop_succ (hne : q.LRIndex ≠ q.availIndex) {fuel n : Nat} {b : Bool} {h : H} {seen : List FreeObject} :
    finalUAFCheckLoop (logged ops) (fuel + 1) b n q (h, seen) =
      if (ops.hasUsageAfterFree h q.getLRObject).1 = true then
        if n + 1 = 4 then some (true, q.pop, (ops.hasUsageAfterFree h q.getLRObject).2, seen ++ [q.getLRObject])
        else finalUAFCheckLoop (logged ops) fuel true (n + 1) q.pop ((ops.hasUsageAfterFree h q.getLRObject).2, seen ++ [q.getLRObject])
      else finalUAFCheckLoop (logged ops) fuel b n q.pop ((ops.hasUsageAfterFree h q.getLRObject).2, seen ++ [q.getLRObject]) := by
  rw [finalUAFCheckLoop, retrieveLRObject, if_neg hne]
  rfl

/-- The loop of `finalUAFCheck`, where a check keeps what it depends on. -/
theorem finalUAFCheckLoop_eq {P : H → Prop} {damaged : FreeObject → Bool}
    (hcheck : ∀ h o, P h → (ops.hasUsageAfterFree h o).1 = damaged o ∧ P (ops.hasUsageAfterFree h o).2) {fuel n : Nat} (b : Bool)
    {h : H} (seen : List FreeObject) (hq : q.InBuffer) (hfuel : q.ring.length < fuel) (hP : P h) :
    ∃ q' h', finalUAFCheckLoop (logged ops) fuel b n q (h, seen) =
      some (b || q.ring.any damaged, q', h', seen ++ inspected damaged n q.ring) := by
  induction fuel generalizing q n b h seen with
  | zero => omega
  | succ fuel ih =>
    by_cases hempty : q.LRIndex = q.availIndex
    · have hnil : q.ring = [] := by
        rw [ring, hempty]
        exact Ring.view_self
      rw [finalUAFCheckLoop, retrieveLRObject, if_pos hempty, hnil]
      exact ⟨q, h, by simp [inspected]⟩
    · have hring : q.ring = q.getLRObject :: q.pop.ring := Ring.view_cons hq.lr hq.avail hempty
      have hpop : q.pop.InBuffer := ⟨hq.avail, Nat.mod_lt _ (by decide)⟩
      have hlen : q.pop.ring.length < fuel := by
        rw [hring, List.length_cons] at hfuel
        omega
      obtain ⟨hdamaged, hP'⟩ := hcheck h q.getLRObject hP
      rw [finalUAFCheckLoop_succ hempty, hdamaged, hring, List.any_cons, inspected]
      by_cases hd : damaged q.getLRObject = true
      · rw [if_pos hd, if_pos hd, hd, Bool.true_or, Bool.or_true]
        by_cases h4 : n + 1 = 4
        · rw [if_pos h4, if_pos h4]
          exact ⟨_, _, rfl⟩
        · rw [if_neg h4, if_neg h4, List.append_cons seen q.getLRObject (inspected damaged (n + 1) q.pop.ring)]
          exact ih true (seen ++ [q.getLRObject]) hpop hlen hP'
      · rw [if_neg hd, if_neg hd]
        rw [Bool.not_eq_true] at hd
        rw [hd, Bool.false_or, List.append_cons seen q.getLRObject (inspected damaged n q.pop.ring)]
        exact ih b (seen ++ [q.getLRObject]) hpop hlen hP'

/-- The check of an object finds a word that is no canary. -/
def usedAfterFree (m : Mem) (o : FreeObject) : Bool := !(XMemory.brokenCanaries m o).isEmpty

/-- One of the first words of a freed object is not what `markFreeObject` wrote there, in the memory `m` of that moment. -/
def Changed (m now : Mem) (o : FreeObject) : Prop :=
  ∃ i < min (o.size / 8) 16, now.read (o.ptr + i * 8) 8 ≠ (XMemory.markFreeObject m o.ptr o.size).read (o.ptr + i * 8) 8

theorem getMarkWords_eq (size : Nat) : getMarkWords size = min (size / 8) 16 := by
  unfold getMarkWords
  simp only [FREE_OBJECT_CANARY_SIZE, FREE_OBJECT_CANARY_WORDS, WORD_SIZE]
  split <;> omega

theorem usedAfterFree_iff (m now : Mem) (o : FreeObject) : usedAfterFree now o = true ↔ Changed m now o := by
  have hmark := XMemory.markFreeObject_intact m o.ptr o.size
  unfold XMemory.CanaryIntact at hmark
  unfold usedAfterFree Changed
  rw [Bool.not_eq_true', ← Bool.not_eq_true, List.isEmpty_iff, ← getMarkWords_eq]
  constructor
  · intro hbroken
    obtain ⟨a, ha⟩ := List.exists_mem_of_ne_nil _ hbroken
    rw [XMemory.brokenCanaries, List.mem_filter, List.mem_map] at ha
    obtain ⟨⟨i, hi, rfl⟩, hne⟩ := ha
    rw [List.mem_range] at hi
    refine ⟨i, hi, ?_⟩
    rw [hmark i hi]
    simpa using hne
  · rintro ⟨i, hi, hne⟩ hnil
    rw [hmark i hi] at hne
    have hmem : o.ptr + i * WORD_SIZE ∈ XMemory.brokenCanaries now o := by
      rw [XMemory.brokenCanaries, List.mem_filter, List.mem_map]
      exact ⟨⟨i, List.mem_range.mpr hi, rfl⟩, by simpa using hne⟩
    rw [hnil] at hmem
    cases hmem

theorem foldl_addWatchpoint_mem (ws : List Nat) (map : SentinelMap) (ptr : Nat) :
    (ws.foldl (fun map a => map.addWatchpoint a .useAfterFree ptr) map).mem = map.mem := by
  induction ws generalizing map with
  | nil => rfl
  | cons w ws ih => rw [List.foldl_cons, ih, SentinelMap.addWatchpoint_mem]

/-- A check says what the memory holds, and does not change it. -/
theorem quarantineHeap_check (tid : Nat) (x : XMemory) (o : FreeObject) :
    ((XMemory.quarantineHeap tid).hasUsageAfterFree x o).1 = usedAfterFree x.mem o ∧
      ((XMemory.quarantineHeap tid).hasUsageAfterFree x o).2.mem = x.mem :=
  ⟨rfl, foldl_addWatchpoint_mem _ _ _⟩

/-- The final check of a ring is exact, and it looks at every object of it once, unless it stops at the fourth one that has
    been used after it was freed. -/
theorem finalUAFCheck_exact (hq : RingState q) (tid : Nat) (x : XMemory) (m : FreeObject → Mem) : ∃ r q' x' seen,
    finalUAFCheck (logged (XMemory.quarantineHeap tid)) q (x, []) = some (r, q', x', seen) ∧
    (r = true ↔ ∃ o ∈ q.ring, Changed (m o) x.mem o) ∧
    (∀ o ∈ q.ring, o.size % 8 = 0) ∧
    (seen = q.ring ∨ ∃ before o after, q.ring = before ++ o :: after ∧ seen = before ++ [o] ∧ Changed (m o) x.mem o ∧
      before.countP (usedAfterFree x.mem) = 3) := by
  obtain ⟨hwf, h8⟩ := hq.wf
  have hstep : ∀ y o, y.mem = x.mem → ((XMemory.quarantineHeap tid).hasUsageAfterFree y o).1 = usedAfterFree x.mem o ∧
      ((XMemory.quarantineHeap tid).hasUsageAfterFree y o).2.mem = x.mem := by
    intro y o hy
    obtain ⟨hres, hmem⟩ := quarantineHeap_check tid y o
    rw [hy] at hres hmem
    exact ⟨hres, hmem⟩
  obtain ⟨q', x', hrun⟩ := @finalUAFCheckLoop_eq _ _ q (fun y => y.mem = x.mem) _ hstep QUARANTINE_BUF_SIZE 0 false x [] hwf.inBuffer
    ring_length_lt rfl
  refine ⟨_, q', x', _, hrun, ?_, h8, ?_⟩
  · rw [Bool.false_or, List.any_eq_true]
    exact exists_congr fun o => and_congr_right fun _ => usedAfterFree_iff (m o) x.mem o
  · rw [List.nil_append]
    rcases inspected_cases (usedAfterFree x.mem) (show 0 < 4 by decide) q.ring with hall | ⟨before, o, after, hring, hin, ho, hcount⟩
    · exact .inl hall
    · refine .inr ⟨before, o, after, hring, hin, (usedAfterFree_iff (m o) x.mem o).mp ho, ?_⟩
      rwa [Nat.zero_add] at hcount

/-- One object, in memory that is zero. -/
theorem finalUAFCheck_exact_one : ∃ q' x' seen,
    finalUAFCheck (logged (XMemory.quarantineHeap 0)) oneObject (State.start.rt.memory, []) = some (true, q', x', seen) ∧
    seen = [⟨0x100000020, 16⟩] := by
  obtain ⟨r, q', x', seen, hrun, hr, -, hseen⟩ := finalUAFCheck_exact oneObject_ringState 0 State.start.rt.memory fun _ _ => 0
  rw [oneObject_ring] at hr hseen
  have hchanged : Changed (fun _ => 0) State.start.rt.memory.mem ⟨0x100000020, 16⟩ := ⟨0, by decide, by decide +kernel⟩
  have htrue : r = true := hr.mpr ⟨_, List.mem_singleton_self _, hchanged⟩
  subst htrue
  refine ⟨q', x', seen, hrun, ?_⟩
  rcases hseen with hall | ⟨before, o, after, hsplit, -, -, hcount⟩
  · exact hall
  · have hlen := congrArg List.length hsplit
    have := List.countP_le_length (p := usedAfterFree State.start.rt.memory.mem) (l := before)
    simp only [List.length_append, List.length_cons, List.length_nil] at hlen
    omega

/-! ### The loop of `addFreeObject` -/

/-- The objects that have to leave a ring before one of `size` bytes joins it: the oldest ones, as long as the bytes are too many
    or no slot is free. -/
def victims (size : Nat) : List FreeObject → List FreeObject
  | [] => []
  | o :: os =>
    if bytes (o :: os) + size > QUARANTINE_TOTAL_SIZE ∨ (o :: os).length + 1 = QUARANTINE_BUF_SIZE then o :: victims size os
    else []

/-- The memory in which an object passes its check: the one it is in, or what a rollback recovers, or a second one. -/
def settled (x : XMemory) (o : FreeObject) : Option XMemory :=
  [x, x.recover, x.recover.recover].find? fun y => !usedAfterFree y.mem o

/-- The objects can leave one after the other: each passes its check in its turn, at the latest after rollbacks. -/
def AllLeave (tid : Nat) : XMemory → List FreeObject → Prop
  | _, [] => True
  | x, o :: os => ∃ y, settled x o = some y ∧ ∀ z, (XMemory.quarantineHeap tid).realfree y o.ptr = .ok z → AllLeave tid z os

theorem full_iff (hq : q.InBuffer) : q.Full ↔ q.totalSize > QUARANTINE_TOTAL_SIZE ∨ q.ring.length + 1 = QUARANTINE_BUF_SIZE := by
  refine or_congr_right ?_
  obtain ⟨havail, hlr⟩ := hq
  rw [ring, Ring.length_view, hasAvailSlot, Bool.not_eq_true, bne_eq_false_iff_eq]
  simp only [QUARANTINE_BUF_SIZE] at havail hlr ⊢
  omega

/-- The heap of a quarantine without the watchpoints, their events and the notes of its checks. -/
def quietHeap (tid : Nat) : QuarantineHeap XMemory :=
  { XMemory.quarantineHeap tid with
    hasUsageAfterFree := fun x o => (usedAfterFree x.mem o, x)
    rollback := fun x => .ok x.recover }

/-- The memory without the watchpoints, their events and the notes. -/
def bare (x : XMemory) : XMemory :=
  { x with checks := [], perf := ⟨0, fun _ => true⟩, heap := { x.heap with map := { x.heap.map with wp := [] } } }

/-- With some number of events open, the kernel opens no more: an event takes a descriptor, and one of the breakpoints of the
    machine. -/
def Refuses (k : PerfEvents) : Prop := ∃ n, k.opened ≤ n ∧ k.opens n = false

theorem bare_mem {x y : XMemory} (h : bare x = bare y) : x.mem = y.mem := by
  have hx : ∀ z : XMemory, z.mem = (bare z).mem := fun _ => rfl
  rw [hx x, hx y, h]

theorem bare_recover {x y : XMemory} (h : bare x = bare y) : bare x.recover = bare y.recover := by
  have hx : ∀ z : XMemory, bare z.recover = bare (bare z).recover := fun _ => rfl
  rw [hx x, hx y, h]

/-- The memory after an object has been put in the list of its size class. -/
def released (tid ptr : Nat) (x : XMemory) : XMemory :=
  let size := ObjectHeader.getSize x.mem ptr
  if size > XPHeap.maxObjectSize then x
  else
    let sizeClass := XPHeap.lowerClass size (Kingsley.size2Class size)
    let list := x.heap.bins tid sizeClass
    { x with heap := { x.heap with
        map := x.heap.map.store ptr (list.headD 0)
        bins := Function.update x.heap.bins tid (Function.update (x.heap.bins tid) sizeClass (ptr :: list)) } }

/-- `realfree` fails on a block of size 0 only. -/
theorem realfree_eq (tid ptr : Nat) (x : XMemory) : (XMemory.quarantineHeap tid).realfree x ptr =
    if ObjectHeader.getSize x.mem ptr = 0 then .error .assertion else .ok (released tid ptr x) := by
  show (x.heap.segFree tid ptr >>= fun heap => Except.ok { x with heap := heap }) = _
  unfold XPHeap.segFree XPHeap.getSize released
  by_cases h0 : ObjectHeader.getSize x.mem ptr = 0
  · rw [if_pos h0, if_pos (show ObjectHeader.getSize x.heap.map.mem ptr = 0 from h0)]
    rfl
  · rw [if_neg h0, if_neg (show ¬ ObjectHeader.getSize x.heap.map.mem ptr = 0 from h0)]
    dsimp only
    by_cases hbig : ObjectHeader.getSize x.mem ptr > XPHeap.maxObjectSize
    · rw [if_pos hbig]
      exact congrArg (· >>= fun heap => Except.ok { x with heap := heap }) (if_pos hbig)
    · rw [if_neg hbig]
      exact congrArg (· >>= fun heap => Except.ok { x with heap := heap }) (if_neg hbig)

theorem bare_released {x y : XMemory} (h : bare x = bare y) (tid ptr : Nat) : bare (released tid ptr x) = bare (released tid ptr y) := by
  have hx : ∀ z : XMemory, bare (released tid ptr z) = released tid ptr (bare z) := by
    intro z
    unfold released
    by_cases hbig : ObjectHeader.getSize z.mem ptr > XPHeap.maxObjectSize
    · rw [if_pos hbig]
      exact (if_pos hbig).symm
    · rw [if_neg hbig]
      exact (if_neg hbig).symm
  rw [hx, hx, h]

theorem bare_check (tid : Nat) (x : XMemory) (o : FreeObject) : bare ((XMemory.quarantineHeap tid).hasUsageAfterFree x o).2 = bare x := by
  have hfold : ∀ (ws : List Nat) (map : SentinelMap), ∃ wp,
      ws.foldl (fun map a => map.addWatchpoint a .useAfterFree o.ptr) map = { map with wp := wp } := by
    intro ws
    induction ws with
    | nil => exact fun map => ⟨_, rfl⟩
    | cons w ws ih =>
      intro map
      obtain ⟨wp, hwp⟩ := ih (map.addWatchpoint w .useAfterFree o.ptr)
      exact ⟨wp, hwp⟩
  obtain ⟨wp, hwp⟩ := hfold (XMemory.brokenCanaries x.mem o) x.heap.map
  show bare (x.note .usageAfterFree _ (XMemory.hasUsageAfterFree x.heap.map o).2) = bare x
  rw [show (XMemory.hasUsageAfterFree x.heap.map o).2 = { x.heap.map with wp := wp } from hwp]
  rfl

theorem released_perf (tid ptr : Nat) (x : XMemory) : (released tid ptr x).perf = x.perf := by
  unfold released
  dsimp only
  split <;> rfl

theorem realfree_ok {tid ptr : Nat} {x y : XMemory} (h : (XMemory.quarantineHeap tid).realfree x ptr = .ok y) : y.perf = x.perf := by
  rw [realfree_eq] at h
  split at h
  · cases h
  · cases h
    exact released_perf tid ptr x

theorem realfree_error {tid ptr : Nat} {x : XMemory} {f : Fault} (h : (XMemory.quarantineHeap tid).realfree x ptr = .error f) :
    f ≠ .loop := by
  rw [realfree_eq] at h
  split at h
  · cases h
    exact nofun
  · cases h

/-- An object that fails its check is watched. -/
theorem check_watches {tid : Nat} {x y : XMemory} {o : FreeObject}
    (h : (XMemory.quarantineHeap tid).hasUsageAfterFree x o = (true, y)) : y.heap.map.wp ≠ [] := by
  have hadd : ∀ (map : SentinelMap) (a : Nat), (map.addWatchpoint a .useAfterFree o.ptr).wp ≠ [] := by
    intro map a
    rw [SentinelMap.addWatchpoint, addWatchpoint]
    split
    · exact List.append_ne_nil_of_right_ne_nil _ (List.cons_ne_nil _ _)
    · rename_i hroom
      rintro hnil
      rw [hnil] at hroom
      exact hroom (by decide)
  have hfold : ∀ (ws : List Nat) (map : SentinelMap), map.wp ≠ [] →
      (ws.foldl (fun map a => map.addWatchpoint a .useAfterFree o.ptr) map).wp ≠ [] := by
    intro ws
    induction ws with
    | nil => exact fun map hmap => hmap
    | cons w ws ih => exact fun map _ => ih _ (hadd map w)
  obtain ⟨hbroken, rfl⟩ := Prod.mk.inj h
  cases hws : XMemory.brokenCanaries x.heap.map.mem o with
  | nil =>
    rw [hws] at hbroken
    cases hbroken
  | cons w ws => exact hfold ws _ (hadd x.heap.map w)

/-- Each round of the loop lets an object go or opens an event, so that it ends when the kernel refuses one. -/
theorem evict_refused (tid : Nat) {size n fuel : Nat} (hsize : size ≤ QUARANTINE_TOTAL_SIZE) {x : XMemory} (hq : q.InBuffer)
    (htot : q.totalSize = bytes q.ring + size) (hle : x.perf.opened ≤ n) (hn : x.perf.opens n = false)
    (hfuel : q.ring.length + (n - x.perf.opened) < fuel) : evict (XMemory.quarantineHeap tid) fuel q x ≠ .error .loop := by
  induction fuel generalizing q x with
  | zero => omega
  | succ fuel ih =>
    by_cases hgo : q.Full
    · have hperf : ∀ {damaged : Bool} {y : XMemory}, (XMemory.quarantineHeap tid).hasUsageAfterFree x q.getLRObject = (damaged, y) →
          y.perf = x.perf := fun h => congrArg (fun c => c.2.perf) h.symm
      rw [evict_full hgo]
      rcases freeLRObject_cases hq (ring_ne_nil hq htot hsize hgo) htot x with
        ⟨y, hcheck, ⟨f, hroll, hrun⟩ | ⟨z, hroll, hrun⟩⟩ | ⟨y, hcheck, ⟨f, hfree, hrun⟩ | ⟨q', z, hfree, hrun, hring, hev⟩⟩
      · rw [Except.bind_of_error hrun]
        rcases y.rollback_cases with ⟨herr, -⟩ | ⟨hok, -⟩
        · cases hroll.symm.trans herr
          exact nofun
        · cases hroll.symm.trans hok
      · -- The ring is as before, and at least one more event is open.
        rw [Except.bind_of_ok hrun]
        have hwp := List.length_pos_of_ne_nil (check_watches hcheck)
        rcases y.rollback_cases with ⟨herr, -⟩ | ⟨hok, hall⟩
        · cases hroll.symm.trans herr
        · cases hroll.symm.trans hok
          rw [hperf hcheck] at hall ⊢
          have hnext : x.perf.opened + y.heap.map.wp.length ≤ n := by
            by_contra hlt
            rw [hall n hle (Nat.not_le.mp hlt)] at hn
            cases hn
          exact ih hq htot hnext hn (by dsimp only; omega)
      · rw [Except.bind_of_error hrun]
        exact fun h => realfree_error hfree (Except.error.inj h)
      · rw [Except.bind_of_ok hrun]
        have hsame : z.perf = x.perf := (realfree_ok hfree).trans (hperf hcheck)
        rw [hring, List.length_cons] at hfuel
        exact ih hev.inBuffer hev.total (by rwa [hsame]) (by rwa [hsame]) (by rw [hsame]; dsimp only; omega)
    · rw [evict_not_full hgo]
      exact nofun

/-- The watchpoints, their events and the notes do not matter to the loop when the kernel opens all events. -/
theorem evict_quiet (tid : Nat) {fuel : Nat} {q : Quarantine} {x y : XMemory} (h : bare x = bare y) (hopens : ¬ Refuses x.perf) :
    evict (XMemory.quarantineHeap tid) fuel q x = .error .loop ↔ evict (quietHeap tid) fuel q y = .error .loop := by
  induction fuel generalizing q x y with
  | zero => exact iff_of_true rfl rfl
  | succ fuel ih =>
    by_cases hgo : q.Full
    · rw [evict_full hgo, evict_full hgo, freeLRObject, freeLRObject]
      have hcheck := bare_check tid x q.getLRObject
      have hperf : ((XMemory.quarantineHeap tid).hasUsageAfterFree x q.getLRObject).2.perf = x.perf := rfl
      have hsame : ((XMemory.quarantineHeap tid).hasUsageAfterFree x q.getLRObject).1 = usedAfterFree y.mem q.getLRObject := by
        rw [← bare_mem h]
        exact (quarantineHeap_check tid x q.getLRObject).1
      have hquiet : (quietHeap tid).hasUsageAfterFree y q.getLRObject = (usedAfterFree y.mem q.getLRObject, y) := rfl
      rw [hquiet]
      cases hres : (XMemory.quarantineHeap tid).hasUsageAfterFree x q.getLRObject with
      | mk damaged z =>
        rw [hres] at hcheck hsame hperf
        dsimp only at hcheck hsame hperf ⊢
        have hz : bare z = bare y := hcheck.trans h
        rw [hsame]
        by_cases hd : usedAfterFree y.mem q.getLRObject = true
        · rw [if_pos hd, if_pos hd]
          rcases z.rollback_cases with ⟨-, hrefuses⟩ | ⟨hok, -⟩
          · exact absurd (hperf ▸ hrefuses) hopens
          · have hroll : (XMemory.quarantineHeap tid).rollback z =
                .ok { z.recover with perf := ⟨z.perf.opened + z.heap.map.wp.length, z.perf.opens⟩ } := hok
            rw [hroll]
            refine ih (bare_recover hz) fun hagain => ?_
            obtain ⟨n, hle, hn⟩ := hagain
            refine hopens ⟨n, ?_, ?_⟩
            · rw [← hperf]
              exact Nat.le_of_add_right_le hle
            · rw [← hperf]
              exact hn
        · rw [if_neg hd, if_neg hd]
          have hfree : (quietHeap tid).realfree = (XMemory.quarantineHeap tid).realfree := rfl
          rw [hfree, realfree_eq, realfree_eq, bare_mem hz]
          by_cases h0 : ObjectHeader.getSize y.mem q.getLRObject.ptr = 0
          · rw [if_pos h0, if_pos h0]
            exact iff_of_false (by rintro ⟨⟩) (by rintro ⟨⟩)
          · rw [if_neg h0, if_neg h0]
            refine ih (bare_released hz tid q.getLRObject.ptr) ?_
            rwa [released_perf, hperf]
    · rw [evict_not_full hgo, evict_not_full hgo]
      exact iff_of_false (by rintro ⟨⟩) (by rintro ⟨⟩)

/-- What the copies of the globals bring to an address: a value of their own, or nothing. -/
theorem recoverGlobals_at (gs : List XMapping) (a : Nat) :
    (∃ v, ∀ m : Mem, gs.foldl (fun m g => g.recoverMemory m 0) m a = v) ∨
      ∀ m : Mem, gs.foldl (fun m g => g.recoverMemory m 0) m a = m a := by
  induction gs with
  | nil => exact .inr fun _ => rfl
  | cons g gs ih =>
    rcases ih with ⟨v, hv⟩ | hid
    · exact .inl ⟨v, fun m => hv _⟩
    · by_cases hin : g.userMemory ≤ a ∧ a < g.userMemory + g.copySize 0
      · refine .inl ⟨g.backupMemory (0 + (a - g.userMemory)), fun m => ?_⟩
        rw [List.foldl_cons, hid]
        exact if_pos hin
      · refine .inr fun m => ?_
        rw [List.foldl_cons, hid]
        exact if_neg hin

/-- A third rollback changes nothing: the first one resets the heap position, up to which the next ones copy. -/
theorem recover_recover (x : XMemory) : x.recover.recover.recover = x.recover.recover := by
  have hmem : ∀ (n : Mem) (stop : Nat),
      let back := fun m : Mem => x.mapping.recoverMemory (x.globals.foldl (fun m g => g.recoverMemory m 0) m) stop
      back (back n) = back n := by
    intro n stop back
    funext a
    by_cases hin : x.mapping.userMemory ≤ a ∧ a < x.mapping.userMemory + x.mapping.copySize stop
    · have hback : ∀ m, back m a = x.mapping.backupMemory (0 + (a - x.mapping.userMemory)) := fun m => if_pos hin
      rw [hback, hback]
    · have hback : ∀ m, back m a = x.globals.foldl (fun m g => g.recoverMemory m 0) m a := fun m => if_neg hin
      rcases recoverGlobals_at x.globals a with ⟨v, hv⟩ | hid
      · rw [hback, hback, hv, hv]
      · rw [hback (back n), hid]
  exact congrArg (fun m : Mem => { x.recover.recover with
    heap := { x.recover.recover.heap with map := { x.recover.recover.heap.map with mem := m } } })
    (hmem x.recover.mem x.heap.xheap.positionBackup)

/-- The loop ends. -/
def EndsQuiet (tid : Nat) (q : Quarantine) (x : XMemory) : Prop := ∃ fuel, evict (quietHeap tid) fuel q x ≠ .error .loop

theorem endsQuiet_not_full {tid : Nat} {x : XMemory} (h : ¬ q.Full) : EndsQuiet tid q x :=
  ⟨1, by rw [evict_not_full h]; rintro ⟨⟩⟩

/-- A round that leads to another state of the loop. -/
theorem endsQuiet_round {tid : Nat} {q' : Quarantine} {x y : XMemory}
    (h : ∀ fuel, evict (quietHeap tid) (fuel + 1) q x = evict (quietHeap tid) fuel q' y) :
    EndsQuiet tid q x ↔ EndsQuiet tid q' y := by
  constructor
  · rintro ⟨fuel, hfuel⟩
    cases fuel with
    | zero => exact absurd rfl hfuel
    | succ fuel => exact ⟨fuel, h fuel ▸ hfuel⟩
  · rintro ⟨fuel, hfuel⟩
    exact ⟨fuel + 1, (h fuel).symm ▸ hfuel⟩

theorem endsQuiet_damaged {tid : Nat} {x : XMemory} (h : q.Full) (hd : usedAfterFree x.mem q.getLRObject = true) :
    EndsQuiet tid q x ↔ EndsQuiet tid q x.recover := by
  refine endsQuiet_round fun fuel => ?_
  have hround : freeLRObject (quietHeap tid) q x = .ok (q, x.recover) := if_pos hd
  rw [evict_full h, hround]
  rfl

/-- An object that rollbacks do not mend stays in the ring for ever. -/
theorem not_endsQuiet {tid : Nat} {x : XMemory} (h : q.Full) (hfix : x.recover = x) (hd : usedAfterFree x.mem q.getLRObject = true) :
    ¬ EndsQuiet tid q x := by
  rintro ⟨fuel, hfuel⟩
  refine hfuel ?_
  clear hfuel
  induction fuel with
  | zero => rfl
  | succ fuel ih =>
    have hround : freeLRObject (quietHeap tid) q x = .ok (q, x.recover) := if_pos hd
    rw [evict_full h, hround, hfix]
    exact ih

/-- The ring after an eviction. -/
def evicted (q : Quarantine) : Quarantine := { q with totalSize := q.totalSize - q.getLRObject.size, LRIndex := incrIndex q.LRIndex }

theorem endsQuiet_intact {tid : Nat} {x : XMemory} (h : q.Full) (hd : usedAfterFree x.mem q.getLRObject = false) :
    EndsQuiet tid q x ↔ ∀ z, (XMemory.quarantineHeap tid).realfree x q.getLRObject.ptr = .ok z → EndsQuiet tid q.evicted z := by
  have hround : freeLRObject (quietHeap tid) q x =
      ((XMemory.quarantineHeap tid).realfree x q.getLRObject.ptr >>= fun z => .ok (q.evicted, z)) :=
    if_neg (Bool.eq_false_iff.mp hd)
  cases hfree : (XMemory.quarantineHeap tid).realfree x q.getLRObject.ptr with
  | error f =>
    refine iff_of_true ⟨1, ?_⟩ (by rintro _ ⟨⟩)
    rw [evict_full h, hround, hfree]
    rw [realfree_eq] at hfree
    split at hfree
    · cases hfree
      rintro ⟨⟩
    · cases hfree
  | ok z =>
    have hnext : EndsQuiet tid q x ↔ EndsQuiet tid q.evicted z := by
      refine endsQuiet_round fun fuel => ?_
      rw [evict_full h, hround, hfree]
      rfl
    rw [hnext]
    constructor
    · rintro hz _ ⟨⟩
      exact hz
    · exact fun hall => hall z rfl

theorem evicted_ring (hq : q.InBuffer) (hne : q.LRIndex ≠ q.availIndex) {size : Nat} (htot : q.totalSize = bytes q.ring + size) :
    q.ring = q.getLRObject :: q.evicted.ring ∧ q.evicted.InBuffer ∧ q.evicted.totalSize = bytes q.evicted.ring + size := by
  have hcons : q.ring = q.getLRObject :: q.evicted.ring := Ring.view_cons hq.lr hq.avail hne
  refine ⟨hcons, ⟨hq.avail, Nat.mod_lt _ (by decide)⟩, ?_⟩
  rw [hcons] at htot
  simp only [bytes, List.map_cons, List.sum_cons] at htot
  simp only [evicted, bytes] at htot ⊢
  omega

theorem settled_intact {x : XMemory} {o : FreeObject} (h : usedAfterFree x.mem o = false) : settled x o = some x := by
  rw [settled, List.find?_cons_of_pos (by rw [h]; rfl)]

theorem settled_recover {x : XMemory} {o : FreeObject} (h : usedAfterFree x.mem o = true)
    (h₁ : usedAfterFree x.recover.mem o = false) : settled x o = some x.recover := by
  rw [settled, List.find?_cons_of_neg (by rw [h]; decide), List.find?_cons_of_pos (by rw [h₁]; rfl)]

theorem settled_twice {x : XMemory} {o : FreeObject} (h : usedAfterFree x.mem o = true) (h₁ : usedAfterFree x.recover.mem o = true) :
    settled x o = if usedAfterFree x.recover.recover.mem o then none else some x.recover.recover := by
  rw [settled, List.find?_cons_of_neg (by rw [h]; decide), List.find?_cons_of_neg (by rw [h₁]; decide)]
  cases h₂ : usedAfterFree x.recover.recover.mem o
  · exact List.find?_cons_of_pos (by rw [h₂]; rfl)
  · rw [List.find?_cons_of_neg (by rw [h₂]; decide)]
    rfl

/-- The loop ends when the objects that have to leave can do so one after the other. -/
theorem endsQuiet_iff {tid size : Nat} (hsize : size ≤ QUARANTINE_TOTAL_SIZE) {x : XMemory} (hq : q.InBuffer)
    (htot : q.totalSize = bytes q.ring + size) : EndsQuiet tid q x ↔ AllLeave tid x (victims size q.ring) := by
  obtain ⟨os, hos⟩ : ∃ os, q.ring = os := ⟨_, rfl⟩
  induction os generalizing q x with
  | nil =>
    rw [hos]
    refine iff_of_true (endsQuiet_not_full fun hfull => ?_) trivial
    have hcons := (evicted_ring hq (ring_ne_nil hq htot hsize hfull) htot).1
    rw [hos] at hcons
    cases hcons
  | cons o os ih =>
    by_cases hfull : q.Full
    · obtain ⟨hcons, hq', htot'⟩ := evicted_ring hq (ring_ne_nil hq htot hsize hfull) htot
      rw [hos, List.cons.injEq] at hcons
      obtain ⟨ho, hrest⟩ := hcons
      have hvictims : victims size q.ring = o :: victims size os := by
        rw [full_iff hq, htot] at hfull
        rw [hos] at hfull ⊢
        exact if_pos hfull
      -- An object with its canary whole leaves, and the rest follows.
      have hleave : ∀ y, usedAfterFree y.mem o = false →
          (EndsQuiet tid q y ↔ ∀ z, (XMemory.quarantineHeap tid).realfree y o.ptr = .ok z → AllLeave tid z (victims size os)) := by
        intro y hy
        rw [endsQuiet_intact hfull (ho ▸ hy), ← ho]
        refine forall₂_congr fun z _ => ?_
        rw [ih hq' htot' hrest.symm, ← hrest]
      rw [hvictims, AllLeave]
      cases h₀ : usedAfterFree x.mem o
      · rw [settled_intact h₀, hleave x h₀]
        simp only [Option.some.injEq, exists_eq_left']
      · rw [endsQuiet_damaged hfull (ho ▸ h₀)]
        cases h₁ : usedAfterFree x.recover.mem o
        · rw [settled_recover h₀ h₁, hleave x.recover h₁]
          simp only [Option.some.injEq, exists_eq_left']
        · rw [settled_twice h₀ h₁, endsQuiet_damaged hfull (ho ▸ h₁)]
          cases h₂ : usedAfterFree x.recover.recover.mem o
          · rw [hleave x.recover.recover h₂]
            simp only [Bool.false_eq_true, if_false, Option.some.injEq, exists_eq_left']
          · refine iff_of_false (not_endsQuiet hfull (recover_recover x) (ho ▸ h₂)) ?_
            rintro ⟨y, ⟨⟩, -⟩
    · have hvictims : victims size q.ring = [] := by
        rw [full_iff hq, htot] at hfull
        rw [hos] at hfull ⊢
        exact if_neg hfull
      rw [hvictims]
      exact iff_of_true (endsQuiet_not_full hfull) trivial

/-- The loop of `addFreeObject` for an object that the quarantine takes. -/
theorem addFreeObjectWithin_ends (hq : RingState q) (tid : Nat) (x : XMemory) (ptr : Nat) {size : Nat} (hlt : size < QUARANTINE_TOTAL_SIZE)
    (h8 : size % 8 = 0) : (∃ fuel, addFreeObjectWithin fuel (XMemory.quarantineHeap tid) q x ptr size ≠ .error .loop) ↔
      AllLeave tid ((XMemory.quarantineHeap tid).markFreeObject x ptr size) (victims size q.ring) ∨ Refuses x.perf := by
  obtain ⟨hwf, -⟩ := hq.wf
  have hring := ring_insert hwf.inBuffer ⟨ptr, size⟩
  have hbuf : (q.insert ⟨ptr, size⟩).InBuffer := ⟨hwf.inBuffer.avail, hwf.inBuffer.lr⟩
  have htot := insert_total hwf ⟨ptr, size⟩
  have hloop : ∀ fuel, addFreeObjectWithin fuel (XMemory.quarantineHeap tid) q x ptr size = .error .loop ↔
      evict (XMemory.quarantineHeap tid) fuel (q.insert ⟨ptr, size⟩) ((XMemory.quarantineHeap tid).markFreeObject x ptr size) =
        .error .loop := by
    intro fuel
    rw [addFreeObjectWithin, if_neg (Nat.not_le.mpr hlt), if_neg (not_not.mpr h8)]
    exact Except.bind_eq_error_iff fun c h => by cases h
  by_cases hrefuses : Refuses x.perf
  · obtain ⟨n, hle, hn⟩ := hrefuses
    have hmark : ((XMemory.quarantineHeap tid).markFreeObject x ptr size).perf = x.perf := rfl
    rw [← hmark] at hle hn
    obtain ⟨fuel, hfuel⟩ : ∃ fuel, (q.insert ⟨ptr, size⟩).ring.length +
        (n - ((XMemory.quarantineHeap tid).markFreeObject x ptr size).perf.opened) < fuel := ⟨_, Nat.lt_succ_self _⟩
    refine iff_of_true ⟨fuel, fun h => ?_⟩ (.inr ⟨n, hle, hn⟩)
    exact evict_refused tid (Nat.le_of_lt hlt) hbuf htot hle hn hfuel ((hloop fuel).mp h)
  · rw [or_iff_left hrefuses]
    have hiff := @endsQuiet_iff (q.insert ⟨ptr, size⟩) tid size (Nat.le_of_lt hlt) ((XMemory.quarantineHeap tid).markFreeObject x ptr size)
      hbuf htot
    rw [hring] at hiff
    rw [← hiff]
    exact exists_congr fun fuel => not_congr ((hloop fuel).trans (evict_quiet tid rfl hrefuses))

/-- `addFreeObject` ends, in memory with any contents, when the objects that have to leave can do so one after the other, or else
    when the kernel refuses an event for a watchpoint. -/
theorem addFreeObject_ends_iff (hq : RingState q) (tid : Nat) (x : XMemory) (ptr size : Nat) :
    (∃ fuel, addFreeObjectWithin fuel (XMemory.quarantineHeap tid) q x ptr size ≠ .error .loop) ↔
      (size < QUARANTINE_TOTAL_SIZE → size % 8 = 0 →
        AllLeave tid ((XMemory.quarantineHeap tid).markFreeObject x ptr size) (victims size q.ring) ∨ Refuses x.perf) := by
  by_cases hlt : size < QUARANTINE_TOTAL_SIZE
  · by_cases h8 : size % 8 = 0
    · rw [forall_prop_of_true hlt, forall_prop_of_true h8]
      exact addFreeObjectWithin_ends hq tid x ptr hlt h8
    · refine iff_of_true ⟨0, ?_⟩ fun _ h => absurd h h8
      rw [addFreeObjectWithin, if_neg (Nat.not_le.mpr hlt), if_pos h8]
      rintro ⟨⟩
  · refine iff_of_true ⟨0, ?_⟩ fun h => absurd h hlt
    rw [addFreeObjectWithin, if_pos (Nat.not_lt.mp hlt)]
    rintro ⟨⟩

/-- No kernel opens events without end, so `addFreeObject` ends, in memory with any contents. -/
theorem addFreeObject_ends (hq : RingState q) (tid : Nat) (x : XMemory) (ptr size : Nat) (hlimit : Refuses x.perf) :
    ∃ fuel, addFreeObjectWithin fuel (XMemory.quarantineHeap tid) q x ptr size ≠ .error .loop :=
  (addFreeObject_ends_iff hq tid x ptr size).mpr fun _ _ => .inr hlimit

/-- An object of 16 bytes has to leave for one that needs all the room. It does not hold its canary, in memory or in the copy of
    it: for the second rollback the kernel refuses an event. -/
theorem addFreeObject_ends_refused :
    (∃ fuel, addFreeObjectWithin fuel (XMemory.quarantineHeap 0) oneObject State.start.rt.memory 0x100002000 16777208 ≠ .error .loop) ∧
      victims 16777208 oneObject.ring = [⟨0x100000020, 16⟩] ∧
        addFreeObjectWithin 2 (XMemory.quarantineHeap 0) oneObject State.start.rt.memory 0x100002000 16777208 = .error .perfEvent := by
  refine ⟨addFreeObject_ends oneObject_ringState 0 State.start.rt.memory 0x100002000 16777208 ⟨4, by decide, by decide⟩,
    by decide +kernel, ?_⟩
  have hrun : (match addFreeObjectWithin 2 (XMemory.quarantineHeap 0) oneObject State.start.rt.memory 0x100002000 16777208 with
      | .error f => some f
      | .ok _ => none) = some .perfEvent := by decide +kernel
  cases hres : addFreeObjectWithin 2 (XMemory.quarantineHeap 0) oneObject State.start.rt.memory 0x100002000 16777208 with
  | error f =>
    rw [hres] at hrun
    rw [Option.some.inj hrun]
  | ok r =>
    rw [hres] at hrun
    cases hrun

end Quarantine
end DoubleTake
