import DoubleTake.Theorems.Quarantine
import DoubleTake.Lib.Transition
import DoubleTake.XMemory

/-! Quarantines over whole runs: objects are freed by the threads and epochs change. The first objects that a thread has
    freed are really freed, in that order, and the others are in its ring, as long as no epoch begins with objects in
    the ring of a thread that lives on: `xthread::epochBegin` restores the empty ring of the program start. -/

namespace DoubleTake
namespace Quarantine

open Transition

variable {H : Type}

/-- A heap, the pointers passed to `realfree`, and whether a damaged canary has been seen. -/
structure Traced (H : Type) where
  heap : H
  freed : List Nat
  corrupted : Bool

/-- The operations of a heap, traced. -/
def traced (ops : QuarantineHeap H) : QuarantineHeap (Traced H) where
  markFreeObject h ptr size := { h with heap := ops.markFreeObject h.heap ptr size }
  hasUsageAfterFree h object :=
    let (hasUAF, heap) := ops.hasUsageAfterFree h.heap object
    (hasUAF, { h with heap := heap, corrupted := h.corrupted || hasUAF })
  realfree h ptr := do
    let heap ← ops.realfree h.heap ptr
    .ok { h with heap := heap, freed := h.freed ++ [ptr] }
  rollback h := do
    let heap ← ops.rollback h.heap
    .ok { h with heap := heap }

/-- The quarantines of all threads, what each of them has accepted and what has been really freed for it. -/
structure Run (H : Type) where
  qlist : Nat → Quarantine
  heap : H
  accepted : Nat → List FreeObject
  freed : Nat → List Nat
  corrupted : Bool

inductive RunOp where
  | addFreeObject (tid ptr size : Nat)
  | epochBegin (current : Nat) (alive : List AliveThread)

namespace Run

def exec (ops : Nat → QuarantineHeap H) (s : Run H) : RunOp → Except Fault (Run H)
  | .addFreeObject tid ptr size => do
    let (added, q, h) ← addFreeObject (traced (ops tid)) (s.qlist tid) ⟨s.heap, s.freed tid, s.corrupted⟩ ptr size
    .ok
      { qlist := Function.update s.qlist tid q
        heap := h.heap
        accepted := if added then Function.update s.accepted tid (s.accepted tid ++ [⟨ptr, size⟩]) else s.accepted
        freed := Function.update s.freed tid h.freed
        corrupted := h.corrupted }
  | .epochBegin current alive => .ok { s with qlist := Quarantine.beginThreads s.qlist current alive }

/-- Empty quarantines over any heap. -/
structure Initial (s : Run H) : Prop where
  qlist : ∀ t, s.qlist t = initial
  accepted : ∀ t, s.accepted t = []
  freed : ∀ t, s.freed t = []

def system (ops : Nat → QuarantineHeap H) : System (Run H) RunOp where
  init := Initial
  step s o t := s.exec ops o = .ok t

/-- Nothing is lost or duplicated: of the objects that a thread's quarantine has accepted, the first ones have been
    passed to `realfree`, each once, and each of the others has one slot of the ring. -/
def Kept (s : Run H) : Prop :=
  ∀ t, ∃ gone, s.accepted t = gone ++ (s.qlist t).ring ∧ s.freed t = gone.map (·.ptr)

/-- An epoch begins only when the rings of the threads that live on are empty. -/
def EmptyAtEpoch (s : Run H) : RunOp → Prop
  | .addFreeObject _ _ _ => True
  | .epochBegin current alive => ∀ a ∈ alive, (a.index = current ∨ a.hasJoined = false) → (s.qlist a.index).ring = []

end Run

/-! ### One call -/

section
variable {ops : QuarantineHeap H} {q : Quarantine}

/-- A check adds what it sees to the damage that is known. -/
theorem traced_check {h h₁ : Traced H} {object : FreeObject} {damaged : Bool}
    (hcheck : (traced ops).hasUsageAfterFree h object = (damaged, h₁)) :
    h₁.corrupted = (h.corrupted || damaged) ∧ h₁.freed = h.freed := by
  simp only [traced, Prod.mk.injEq] at hcheck
  obtain ⟨rfl, rfl⟩ := hcheck
  exact ⟨rfl, rfl⟩

/-- An eviction sees damage, or the object at the front is really freed. -/
theorem freeLRObject_traced {size : Nat} (hq : q.InBuffer) (hne : q.LRIndex ≠ q.availIndex)
    (htot : q.totalSize = bytes q.ring + size) {h h' : Traced H} {q' : Quarantine}
    (hrun : freeLRObject (traced ops) q h = .ok (q', h')) :
    (q' = q ∧ h'.corrupted = true) ∨
      h'.corrupted = h.corrupted ∧ Evicting q size q' ∧ q.ring = q.getLRObject :: q'.ring ∧
        h'.freed = h.freed ++ [q.getLRObject.ptr] := by
  rcases freeLRObject_cases hq hne htot h with
    ⟨h₁, hcheck, ⟨f, -, hfail⟩ | ⟨h₂, hroll, hback⟩⟩ | ⟨h₁, hcheck, ⟨f, -, hfail⟩ | ⟨q₁, h₂, hfree, hok, hring, hev⟩⟩
  · rw [hfail] at hrun
    cases hrun
  · rw [hback] at hrun
    cases hrun
    obtain ⟨heap, -, hres⟩ := Except.of_bind_ok hroll
    cases hres
    exact .inl ⟨rfl, (traced_check hcheck).1.trans (Bool.or_true _)⟩
  · rw [hfail] at hrun
    cases hrun
  · rw [hok] at hrun
    cases hrun
    obtain ⟨hsame, hfreed⟩ := traced_check hcheck
    obtain ⟨heap₂, -, hres⟩ := Except.of_bind_ok hfree
    cases hres
    exact .inr ⟨hsame.trans (Bool.or_false _), hev, hring, hfreed ▸ rfl⟩

/-- What leaves the ring is really freed, and no damage is seen on the way. -/
def Clean (h : Traced H) (old : List FreeObject) (h' : Traced H) (new : List FreeObject) : Prop :=
  h'.corrupted = false → h.corrupted = false ∧ ∃ gone, old = gone ++ new ∧ h'.freed = h.freed ++ gone.map (·.ptr)

/-- The loop of `addFreeObject`, when it ends. -/
theorem evict_traced {size : Nat} (hsize : size ≤ QUARANTINE_TOTAL_SIZE) {fuel : Nat} {h h' : Traced H} {q' : Quarantine}
    (hq : q.InBuffer) (htot : q.totalSize = bytes q.ring + size) (hrun : evict (traced ops) fuel q h = .ok (q', h')) :
    Evicting q size q' ∧ q'.hasAvailSlot = true ∧ Clean h q.ring h' q'.ring := by
  induction fuel generalizing q h with
  | zero => cases hrun
  | succ fuel ih =>
    by_cases hgo : q.Full
    · rw [evict_full hgo] at hrun
      obtain ⟨⟨q₁, h₁⟩, hfirst, hrest⟩ := Except.of_bind_ok hrun
      have hne := ring_ne_nil hq htot hsize hgo
      rcases freeLRObject_traced hq hne htot hfirst with ⟨rfl, hbad⟩ | ⟨hsame, hev, hring, hfreed⟩
      -- With damage the ring stays as it is, and the damage stays known.
      · obtain ⟨hev', hroom, hclean⟩ := ih hq htot hrest
        refine ⟨hev', hroom, fun hok => ?_⟩
        rw [(hclean hok).1] at hbad
        cases hbad
      · obtain ⟨hev', hroom, hclean⟩ := ih hev.inBuffer hev.total hrest
        refine ⟨hev.trans hev', hroom, fun hok => ?_⟩
        obtain ⟨hnot, gone, hgone, hfreed'⟩ := hclean hok
        refine ⟨hsame ▸ hnot, q.getLRObject :: gone, ?_, ?_⟩
        · rw [hring, hgone, List.cons_append]
        · rw [hfreed', hfreed, List.append_assoc]
          rfl
    · rw [evict_not_full hgo] at hrun
      cases hrun
      exact ⟨.refl hq htot, (not_full hgo).2, fun hok => ⟨hok, [], rfl, by simp⟩⟩

/-- A call of `addFreeObject` that returns. -/
theorem addFreeObject_traced (hq : q.Wf) {h h' : Traced H} {q' : Quarantine} {ptr size : Nat} {added : Bool}
    (hrun : addFreeObject (traced ops) q h ptr size = .ok (added, q', h')) :
    q'.Wf ∧ Clean h (q.ring ++ if added then [⟨ptr, size⟩] else []) h' q'.ring := by
  rw [addFreeObject, addFreeObjectWithin] at hrun
  split at hrun
  · cases hrun
    exact ⟨hq, fun hok => ⟨hok, [], by simp, by simp⟩⟩
  next hlt =>
    split at hrun
    · cases hrun
    · obtain ⟨⟨q₁, h₁⟩, hloop, hres⟩ := Except.of_bind_ok hrun
      cases hres
      obtain ⟨hev, hroom, hclean⟩ := evict_traced (q := q.insert ⟨ptr, size⟩) (le_of_not_ge hlt)
        ⟨hq.inBuffer.avail, hq.inBuffer.lr⟩ (insert_total hq ⟨ptr, size⟩) hloop
      obtain ⟨hwf, hconcat⟩ := hev.join hq hroom
      refine ⟨hwf, fun hok => ?_⟩
      obtain ⟨hnot, gone, hgone, hfreed⟩ := hclean hok
      rw [ring_insert hq.inBuffer] at hgone
      refine ⟨hnot, gone, ?_, hfreed⟩
      rw [hconcat, if_pos rfl, hgone, List.append_assoc]

end

/-! ### Whole runs -/

namespace Run

variable {ops : Nat → QuarantineHeap H} {s t : Run H}

/-- The rings are well formed, and nothing is lost as long as no damage has been seen. -/
structure Inv (s : Run H) : Prop where
  queues : ∀ t, (s.qlist t).Wf
  kept : s.corrupted = false → s.Kept

theorem addFreeObject_inv (hi : s.Inv) {tid ptr size : Nat} (hs : s.exec ops (.addFreeObject tid ptr size) = .ok t) :
    t.Inv := by
  obtain ⟨⟨added, q, h⟩, hrun, hres⟩ := Except.of_bind_ok hs
  cases hres
  obtain ⟨hwf, hclean⟩ := addFreeObject_traced (hi.queues tid) hrun
  refine ⟨fun t => ?_, fun hok t => ?_⟩
  · by_cases ht : t = tid
    · subst ht
      simpa using hwf
    · simpa [ht] using hi.queues t
  · obtain ⟨hnot, gone, hgone, hfreed⟩ := hclean hok
    obtain ⟨gone₀, haccepted, hfreed₀⟩ := hi.kept hnot t
    by_cases ht : t = tid
    · subst ht
      refine ⟨gone₀ ++ gone, ?_, ?_⟩
      · cases added
        · simpa [haccepted] using hgone
        · simpa [haccepted] using hgone
      · simp [hfreed, hfreed₀]
    · refine ⟨gone₀, ?_, ?_⟩
      · cases added <;> simpa [ht] using haccepted
      · simpa [ht] using hfreed₀

/-- An epoch that begins with empty rings leaves all rings as they are. -/
theorem epochBegin_ring (hq : ∀ t, (s.qlist t).Wf) {current : Nat} {alive : List AliveThread}
    (he : s.EmptyAtEpoch (.epochBegin current alive)) (t : Nat) :
    (beginThreads s.qlist current alive t).ring = (s.qlist t).ring := by
  rcases (beginThreads_spec hq current alive t).2 with hsame | ⟨⟨a, ha, rfl, hlives⟩, hnil⟩
  · rw [hsame]
  · rw [hnil, he a ha hlives]

theorem step_inv (hi : s.Inv) {o : RunOp} (he : s.EmptyAtEpoch o) (hs : s.exec ops o = .ok t) : t.Inv := by
  cases o with
  | addFreeObject tid ptr size => exact addFreeObject_inv hi hs
  | epochBegin current alive =>
    cases hs
    refine ⟨fun t => (beginThreads_spec hi.queues current alive t).1, fun hok t => ?_⟩
    obtain ⟨gone, haccepted, hfreed⟩ := hi.kept hok t
    exact ⟨gone, haccepted.trans (by rw [epochBegin_ring hi.queues he]), hfreed⟩

/-- In every run in which each epoch begins with empty rings, the quarantines lose and duplicate nothing. -/
theorem quarantine_kept (h : Reachable ((system ops).restrict EmptyAtEpoch) s) (hok : s.corrupted = false) : s.Kept := by
  have hi : s.Inv := by
    refine Reachable.invariant (S := (system ops).restrict EmptyAtEpoch) (P := Inv) (fun s hs => ?_)
      (fun _ _ _ hi hs => step_inv hi hs.1 hs.2) h
    refine ⟨fun t => hs.qlist t ▸ initial_wf, fun _ t => ⟨[], ?_, hs.freed t⟩⟩
    rw [hs.accepted, hs.qlist, initial_ring, List.append_nil]
  exact hi.kept hok

/-- Empty quarantines over the memory of the program start. -/
def start : Run XMemory where
  qlist _ := initial
  heap := State.start.rt.memory
  accepted _ := []
  freed _ := []
  corrupted := false

theorem start_initial : start.Initial := ⟨fun _ => rfl, fun _ => rfl, fun _ => rfl⟩

/-- An epoch without objects in quarantine, and then one object. -/
theorem quarantine_kept_first : ∃ s t, start.exec XMemory.quarantineHeap (.epochBegin 0 [⟨0, false⟩]) = .ok s ∧
    s.exec XMemory.quarantineHeap (.addFreeObject 0 0x100000020 16) = .ok t ∧ t.accepted 0 = [⟨0x100000020, 16⟩] ∧
    t.Kept := by
  have hprobe : (start.exec XMemory.quarantineHeap (.epochBegin 0 [⟨0, false⟩])).toOption.bind (fun s =>
      (s.exec XMemory.quarantineHeap (.addFreeObject 0 0x100000020 16)).toOption.map fun t =>
        (t.accepted 0, t.corrupted)) = some ([⟨0x100000020, 16⟩], false) := by decide +kernel
  obtain ⟨s, hs, hprobe⟩ := Option.bind_eq_some_iff.mp hprobe
  obtain ⟨t, ht, hprobe⟩ := Option.map_eq_some_iff.mp hprobe
  obtain ⟨haccepted, hok⟩ := Prod.mk.inj hprobe
  have hempty : start.EmptyAtEpoch (.epochBegin 0 [⟨0, false⟩]) := fun _ _ _ => initial_ring
  exact ⟨s, t, Except.of_toOption hs, Except.of_toOption ht, haccepted, quarantine_kept
    (.step (.addFreeObject 0 0x100000020 16) (.step (.epochBegin 0 [⟨0, false⟩]) (.init start_initial)
      ⟨hempty, Except.of_toOption hs⟩) ⟨trivial, Except.of_toOption ht⟩) hok⟩

/-- An object that is in quarantine when an epoch begins is gone: in no slot, and never really freed. -/
theorem epochBegin_loses_object : ¬ ∀ (H : Type) (ops : Nat → QuarantineHeap H) (s : Run H), Reachable (system ops) s →
    s.corrupted = false → s.Kept := by
  intro h
  have hprobe : (start.exec XMemory.quarantineHeap (.addFreeObject 0 0x100000020 16)).toOption.bind (fun s =>
      (s.exec XMemory.quarantineHeap (.epochBegin 0 [⟨0, false⟩])).toOption.map fun t =>
        ((t.accepted 0, (t.qlist 0).ring), t.freed 0, t.corrupted)) = some (([⟨0x100000020, 16⟩], []), [], false) := by
    decide +kernel
  obtain ⟨s, hs, hprobe⟩ := Option.bind_eq_some_iff.mp hprobe
  obtain ⟨t, ht, hprobe⟩ := Option.map_eq_some_iff.mp hprobe
  simp only [Prod.mk.injEq] at hprobe
  obtain ⟨⟨haccepted, hring⟩, hfreed, hok⟩ := hprobe
  obtain ⟨gone, hgone, hmap⟩ := h XMemory XMemory.quarantineHeap t
    (.step (.epochBegin 0 [⟨0, false⟩]) (.step (.addFreeObject 0 0x100000020 16) (.init start_initial)
      (Except.of_toOption hs)) (Except.of_toOption ht)) hok 0
  rw [hfreed, eq_comm, List.map_eq_nil_iff] at hmap
  rw [haccepted, hring, hmap] at hgone
  cases hgone

end Run

end Quarantine
end DoubleTake
