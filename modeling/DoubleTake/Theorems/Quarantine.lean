import DoubleTake.Lib.Except
import DoubleTake.Quarantine
import Mathlib.Algebra.BigOperators.Group.List.Basic
import Mathlib.Algebra.Ring.Nat

/-! The quarantine ring as a list: what is evicted comes off its front, what is freed is put at its end. -/

namespace DoubleTake
namespace Quarantine

variable {H : Type} {ops : QuarantineHeap H} {q : Quarantine}

/-- The bytes that a list of objects takes. -/
def bytes (os : List FreeObject) : Nat := (os.map (·.size)).sum

/-- The indices are slots of the buffer. -/
structure InBuffer (q : Quarantine) : Prop where
  avail : q.availIndex < QUARANTINE_BUF_SIZE
  lr : q.LRIndex < QUARANTINE_BUF_SIZE

/-- The ring between two calls: its running size is the one of its objects, and the copy for `restore` is that of
    an empty ring. -/
structure Wf (q : Quarantine) : Prop where
  inBuffer : q.InBuffer
  total : q.totalSize = bytes q.ring
  availBackup : q.availIndexBackup = 0
  lrBackup : q.LRIndexBackup = 0
  totalBackup : q.totalSizeBackup = 0

theorem initial_ring : initial.ring = [] := Ring.view_self

theorem initial_wf : initial.Wf where
  inBuffer := ⟨by decide, by decide⟩
  total := by rw [initial_ring]; rfl
  availBackup := rfl
  lrBackup := rfl
  totalBackup := rfl

theorem Wf.restore (h : q.Wf) : q.restore.Wf ∧ q.restore.ring = [] := by
  have hring : q.restore.ring = [] := by
    rw [ring, show q.restore.LRIndex = q.restore.availIndex from h.lrBackup.trans h.availBackup.symm]
    exact Ring.view_self
  refine ⟨⟨⟨?_, ?_⟩, ?_, h.availBackup, h.lrBackup, h.totalBackup⟩, hring⟩
  · rw [show q.restore.availIndex = 0 from h.availBackup]
    decide
  · rw [show q.restore.LRIndex = 0 from h.lrBackup]
    decide
  · rw [hring]
    exact h.totalBackup

theorem ring_length_lt : q.ring.length < QUARANTINE_BUF_SIZE := by
  rw [ring, Ring.length_view]
  exact Nat.mod_lt _ (by decide)

/-- A round of the loop that goes on: there is an object to evict, unless the new one alone is too large. -/
theorem ring_ne_nil (h : q.InBuffer) {size : Nat} (htot : q.totalSize = bytes q.ring + size)
    (hsize : size ≤ QUARANTINE_TOTAL_SIZE) (hgo : q.totalSize > QUARANTINE_TOTAL_SIZE ∨ ¬ q.hasAvailSlot) :
    q.LRIndex ≠ q.availIndex := by
  intro heq
  have hnil : q.ring = [] := by rw [ring, heq]; exact Ring.view_self
  rw [hnil] at htot
  rcases hgo with hgt | hfull
  · simp only [bytes, List.map_nil, List.sum_nil, Nat.zero_add] at htot
    omega
  · have hlt := h.avail
    simp only [hasAvailSlot, heq, QUARANTINE_BUF_SIZE, Bool.not_eq_true, bne_eq_false_iff_eq] at hfull hlt
    omega

/-- What the loop of `addFreeObject` keeps when an object of `size` bytes waits in the slot at `_availIndex`. -/
structure Evicting (q : Quarantine) (size : Nat) (q' : Quarantine) : Prop where
  inBuffer : q'.InBuffer
  total : q'.totalSize = bytes q'.ring + size
  objects : q'.objects = q.objects
  avail : q'.availIndex = q.availIndex
  suffix : q'.ring <:+ q.ring
  availBackup : q'.availIndexBackup = q.availIndexBackup
  lrBackup : q'.LRIndexBackup = q.LRIndexBackup
  totalBackup : q'.totalSizeBackup = q.totalSizeBackup

theorem Evicting.refl {size : Nat} (hq : q.InBuffer) (htot : q.totalSize = bytes q.ring + size) : Evicting q size q :=
  ⟨hq, htot, rfl, rfl, List.suffix_refl _, rfl, rfl, rfl⟩

theorem Evicting.trans {size : Nat} {q₁ q₂ : Quarantine} (h : Evicting q size q₁) (h' : Evicting q₁ size q₂) :
    Evicting q size q₂ :=
  ⟨h'.inBuffer, h'.total, h'.objects.trans h.objects, h'.avail.trans h.avail, h'.suffix.trans h.suffix,
    h'.availBackup.trans h.availBackup, h'.lrBackup.trans h.lrBackup, h'.totalBackup.trans h.totalBackup⟩

/-- One eviction with an intact canary. -/
theorem freeLRObject_eq (h : q.InBuffer) (hne : q.LRIndex ≠ q.availIndex) {size : Nat}
    (htot : q.totalSize = bytes q.ring + size) {h₀ h₁ h₂ : H}
    (huaf : ops.hasUsageAfterFree h₀ q.getLRObject = (false, h₁)) (hfree : ops.realfree h₁ q.getLRObject.ptr = .ok h₂) :
    ∃ q', freeLRObject ops q h₀ = .ok (q', h₂) ∧ q.ring = q.getLRObject :: q'.ring ∧ Evicting q size q' := by
  have hcons : q.ring = q.getLRObject :: Ring.view q.objects QUARANTINE_BUF_SIZE (incrIndex q.LRIndex) q.availIndex :=
    Ring.view_cons h.lr h.avail hne
  refine ⟨{ q with totalSize := q.totalSize - q.getLRObject.size, LRIndex := incrIndex q.LRIndex }, ?_, hcons, ?_⟩
  · rw [freeLRObject, huaf]
    simp only [Bool.false_eq_true, if_false, hfree]
    rfl
  refine ⟨⟨h.avail, Nat.mod_lt _ (by decide)⟩, ?_, rfl, rfl, ?_, rfl, rfl, rfl⟩
  · rw [hcons] at htot
    simp only [bytes, List.map_cons, List.sum_cons] at htot
    simp only [ring, bytes]
    omega
  · rw [hcons]
    exact List.suffix_cons _ _

/-- What one eviction can do: a damaged canary rolls back and keeps the ring, a release that fails ends the loop, and else
    the oldest object leaves the ring. -/
theorem freeLRObject_cases (h : q.InBuffer) (hne : q.LRIndex ≠ q.availIndex) {size : Nat}
    (htot : q.totalSize = bytes q.ring + size) (h₀ : H) :
    (∃ h₁, ops.hasUsageAfterFree h₀ q.getLRObject = (true, h₁) ∧
        ((∃ f, ops.rollback h₁ = .error f ∧ freeLRObject ops q h₀ = .error f) ∨
          ∃ h₂, ops.rollback h₁ = .ok h₂ ∧ freeLRObject ops q h₀ = .ok (q, h₂))) ∨
      ∃ h₁, ops.hasUsageAfterFree h₀ q.getLRObject = (false, h₁) ∧
        ((∃ f, ops.realfree h₁ q.getLRObject.ptr = .error f ∧ freeLRObject ops q h₀ = .error f) ∨
          ∃ q' h₂, ops.realfree h₁ q.getLRObject.ptr = .ok h₂ ∧ freeLRObject ops q h₀ = .ok (q', h₂) ∧
            q.ring = q.getLRObject :: q'.ring ∧ Evicting q size q') := by
  cases hcheck : ops.hasUsageAfterFree h₀ q.getLRObject with
  | mk damaged h₁ =>
    cases damaged with
    | true =>
      refine .inl ⟨h₁, rfl, ?_⟩
      rw [freeLRObject, hcheck]
      cases hroll : ops.rollback h₁ with
      | error f => exact .inl ⟨f, rfl, Except.bind_of_error hroll⟩
      | ok h₂ => exact .inr ⟨h₂, rfl, Except.bind_of_ok hroll⟩
    | false =>
      refine .inr ⟨h₁, rfl, ?_⟩
      cases hfree : ops.realfree h₁ q.getLRObject.ptr with
      | error f =>
        refine .inl ⟨f, rfl, ?_⟩
        rw [freeLRObject, hcheck]
        exact Except.bind_of_error hfree
      | ok h₂ =>
        obtain ⟨q', hrun, hring, hev⟩ := freeLRObject_eq h hne htot hcheck hfree
        exact .inr ⟨q', h₂, rfl, hrun, hring, hev⟩

/-- The loop goes on. -/
def Full (q : Quarantine) : Prop := q.totalSize > QUARANTINE_TOTAL_SIZE ∨ ¬ q.hasAvailSlot

instance (q : Quarantine) : Decidable q.Full := inferInstanceAs (Decidable (_ ∨ _))

theorem evict_full (h : q.Full) {fuel : Nat} {h₀ : H} :
    evict ops (fuel + 1) q h₀ = (freeLRObject ops q h₀ >>= fun c => evict ops fuel c.1 c.2) := by
  rw [evict]
  exact if_pos h

theorem evict_not_full (h : ¬ q.Full) {fuel : Nat} {h₀ : H} : evict ops (fuel + 1) q h₀ = .ok (q, h₀) := by
  rw [evict]
  exact if_neg h

theorem not_full (h : ¬ q.Full) : q.totalSize ≤ QUARANTINE_TOTAL_SIZE ∧ q.hasAvailSlot = true := by
  simpa only [Full, not_or, gt_iff_lt, not_lt, not_not] using h

/-- The loop of `addFreeObject`, whatever the canaries are, when it ends. -/
theorem evict_ok {size : Nat} (hsize : size ≤ QUARANTINE_TOTAL_SIZE) {fuel : Nat} {h h' : H} {q' : Quarantine} (hq : q.InBuffer)
    (htot : q.totalSize = bytes q.ring + size) (hrun : evict ops fuel q h = .ok (q', h')) :
    Evicting q size q' ∧ ¬ q'.Full := by
  induction fuel generalizing q h with
  | zero => cases hrun
  | succ fuel ih =>
    by_cases hgo : q.Full
    · rw [evict_full hgo] at hrun
      obtain ⟨⟨q₁, h₁⟩, hfirst, hrest⟩ := Except.of_bind_ok hrun
      rcases freeLRObject_cases hq (ring_ne_nil hq htot hsize hgo) htot h with
        ⟨h₂, -, ⟨f, -, hfail⟩ | ⟨h₃, -, hback⟩⟩ | ⟨h₂, -, ⟨f, -, hfail⟩ | ⟨q₂, h₃, -, hfreed, -, hev⟩⟩
      · rw [hfail] at hfirst
        cases hfirst
      · rw [hback] at hfirst
        cases hfirst
        exact ih hq htot hrest
      · rw [hfail] at hfirst
        cases hfirst
      · rw [hfreed] at hfirst
        cases hfirst
        obtain ⟨hev', hfit⟩ := ih hev.inBuffer hev.total hrest
        exact ⟨hev.trans hev', hfit⟩
    · rw [evict_not_full hgo] at hrun
      cases hrun
      exact ⟨.refl hq htot, hgo⟩

/-- The loop of `addFreeObject`, for any property of the ring and the heap that an eviction keeps: with intact
    canaries it ends, and the ring that is left has room for one more object. -/
theorem evict_rule {P : List FreeObject → H → Prop}
    (hstep : ∀ o os h, P (o :: os) h → ∃ h₁ h₂, ops.hasUsageAfterFree h o = (false, h₁) ∧
      ops.realfree h₁ o.ptr = .ok h₂ ∧ P os h₂)
    {size : Nat} (hsize : size ≤ QUARANTINE_TOTAL_SIZE) {fuel : Nat} {h : H} (hq : q.InBuffer)
    (htot : q.totalSize = bytes q.ring + size) (hfuel : q.ring.length < fuel) (hP : P q.ring h) :
    ∃ q' h', evict ops fuel q h = .ok (q', h') ∧ P q'.ring h' ∧ Evicting q size q' ∧
      q'.totalSize ≤ QUARANTINE_TOTAL_SIZE ∧ q'.hasAvailSlot = true := by
  induction fuel generalizing q h with
  | zero => omega
  | succ fuel ih =>
    by_cases hgo : q.Full
    · rw [evict_full hgo]
      have hne := ring_ne_nil hq htot hsize hgo
      have hcons : q.ring = q.getLRObject :: Ring.view q.objects QUARANTINE_BUF_SIZE (incrIndex q.LRIndex) q.availIndex :=
        Ring.view_cons hq.lr hq.avail hne
      obtain ⟨h₁, h₂, huaf, hfree, hP'⟩ := hstep _ _ _ (hcons ▸ hP)
      obtain ⟨q₁, hrun, hring, hev⟩ := freeLRObject_eq hq hne htot huaf hfree
      have hrest : Ring.view q.objects QUARANTINE_BUF_SIZE (incrIndex q.LRIndex) q.availIndex = q₁.ring := by
        rw [hcons, List.cons.injEq] at hring
        exact hring.2
      rw [hrest] at hP'
      have hlen : q₁.ring.length < fuel := by
        rw [hring, List.length_cons] at hfuel
        omega
      obtain ⟨q', h', hloop, hP'', hev', hfit⟩ := ih hev.inBuffer hev.total hlen hP'
      refine ⟨q', h', ?_, hP'', hev.trans hev', hfit⟩
      rw [hrun]
      exact hloop
    · exact ⟨q, h, evict_not_full hgo, hP, .refl hq htot, not_full hgo⟩

/-- The ring with an object in its next slot, whose size is counted, while the slot is not yet part of the ring. -/
def insert (q : Quarantine) (o : FreeObject) : Quarantine :=
  { q with objects := Function.update q.objects q.availIndex o, totalSize := q.totalSize + o.size }

theorem ring_insert (hq : q.InBuffer) (o : FreeObject) : (q.insert o).ring = q.ring :=
  Ring.view_update hq.lr hq.avail _

theorem insert_total (hq : q.Wf) (o : FreeObject) : (q.insert o).totalSize = bytes (q.insert o).ring + o.size := by
  rw [ring_insert hq.inBuffer, ← hq.total]
  rfl

/-- After the loop the slot joins the ring. -/
theorem Evicting.join {q' : Quarantine} {o : FreeObject} (hq : q.Wf) (hev : Evicting (q.insert o) o.size q')
    (hroom : q'.hasAvailSlot = true) :
    ({ q' with availIndex := incrIndex q'.availIndex } : Quarantine).Wf ∧
      ({ q' with availIndex := incrIndex q'.availIndex } : Quarantine).ring = q'.ring ++ [o] := by
  have hslot : q'.objects q'.availIndex = o := by
    rw [hev.objects, hev.avail]
    exact Function.update_self ..
  have hconcat : ({ q' with availIndex := incrIndex q'.availIndex } : Quarantine).ring = q'.ring ++ [o] := by
    rw [← hslot]
    exact Ring.view_concat hev.inBuffer.lr hev.inBuffer.avail (by simpa [hasAvailSlot] using hroom)
  refine ⟨⟨⟨Nat.mod_lt _ (by decide), hev.inBuffer.lr⟩, ?_, hev.availBackup.trans hq.availBackup,
    hev.lrBackup.trans hq.lrBackup, hev.totalBackup.trans hq.totalBackup⟩, hconcat⟩
  rw [hconcat]
  simp only [bytes, List.map_append, List.map_cons, List.map_nil, List.sum_append, List.sum_cons, List.sum_nil, Nat.add_zero]
  exact hev.total

/-- `addFreeObject` on an object that is not too large: some objects leave at the front of the ring, and the new one
    is put at its end. -/
theorem addFreeObject_rule {P : List FreeObject → H → Prop}
    (hstep : ∀ o os h, P (o :: os) h → ∃ h₁ h₂, ops.hasUsageAfterFree h o = (false, h₁) ∧
      ops.realfree h₁ o.ptr = .ok h₂ ∧ P os h₂)
    (hq : q.Wf) {h : H} {ptr size : Nat} (hlt : size < QUARANTINE_TOTAL_SIZE) (h8 : size % 8 = 0)
    (hP : P q.ring (ops.markFreeObject h ptr size)) :
    ∃ q' h' kept, addFreeObject ops q h ptr size = .ok (true, q', h') ∧ q'.Wf ∧ kept <:+ q.ring ∧
      q'.ring = kept ++ [⟨ptr, size⟩] ∧ P kept h' := by
  have hring := ring_insert hq.inBuffer ⟨ptr, size⟩
  obtain ⟨q₁, h', hrun, hP', hev, -, hroom⟩ := evict_rule hstep (q := q.insert ⟨ptr, size⟩) (le_of_lt hlt)
    ⟨hq.inBuffer.avail, hq.inBuffer.lr⟩ (insert_total hq ⟨ptr, size⟩) ring_length_lt (hring ▸ hP)
  obtain ⟨hwf, hconcat⟩ := hev.join hq hroom
  refine ⟨_, h', q₁.ring, ?_, hwf, hring ▸ hev.suffix, hconcat, hP'⟩
  rw [addFreeObject, addFreeObjectWithin, if_neg (by omega), if_neg (by simp [h8])]
  exact Except.bind_of_ok hrun

/-- `addFreeObject` on any heap, when it returns. -/
theorem addFreeObject_ok (hq : q.Wf) {h h' : H} {ptr size : Nat} {added : Bool} {q' : Quarantine}
    (hrun : addFreeObject ops q h ptr size = .ok (added, q', h')) :
    q'.Wf ∧ (q' = q ∨ size % 8 = 0 ∧ ∃ kept, kept <:+ q.ring ∧ q'.ring = kept ++ [⟨ptr, size⟩]) := by
  rw [addFreeObject, addFreeObjectWithin] at hrun
  split at hrun
  · cases hrun
    exact ⟨hq, .inl rfl⟩
  next hlt =>
    split at hrun
    · cases hrun
    next h8 =>
      obtain ⟨⟨q₁, h₁⟩, hloop, hres⟩ := Except.of_bind_ok hrun
      cases hres
      obtain ⟨hev, hfit⟩ := @evict_ok _ _ (q.insert ⟨ptr, size⟩) _ (le_of_not_ge hlt) _ _ _ _
        ⟨hq.inBuffer.avail, hq.inBuffer.lr⟩ (insert_total hq ⟨ptr, size⟩) hloop
      obtain ⟨hwf, hconcat⟩ := hev.join hq (not_full hfit).2
      exact ⟨hwf, .inr ⟨not_not.mp h8, q₁.ring, ring_insert hq.inBuffer ⟨ptr, size⟩ ▸ hev.suffix, hconcat⟩⟩

/-- The ring states that calls of `addFreeObject`, on any heaps, and `restore` reach. -/
inductive RingState : Quarantine → Prop where
  | initial : RingState initial
  | addFreeObject {H : Type} {ops : QuarantineHeap H} {q q' : Quarantine} {h h' : H} {ptr size : Nat} {added : Bool} :
      RingState q → addFreeObject ops q h ptr size = .ok (added, q', h') → RingState q'
  | restore {q : Quarantine} : RingState q → RingState q.restore

/-- The sizes in the ring are whole words: the assertion of `getMarkWords` holds for them. -/
theorem RingState.wf (h : RingState q) : q.Wf ∧ ∀ o ∈ q.ring, o.size % 8 = 0 := by
  induction h with
  | initial =>
    refine ⟨initial_wf, fun o ho => ?_⟩
    rw [initial_ring] at ho
    cases ho
  | addFreeObject _ hrun ih =>
    obtain ⟨hwf, hcase⟩ := addFreeObject_ok ih.1 hrun
    refine ⟨hwf, fun o ho => ?_⟩
    rcases hcase with rfl | ⟨h8, kept, hkept, hring⟩
    · exact ih.2 o ho
    · rw [hring, List.mem_append, List.mem_singleton] at ho
      rcases ho with ho | rfl
      · exact ih.2 o (hkept.mem ho)
      · exact h8
  | restore _ ih =>
    obtain ⟨hwf, hnil⟩ := ih.1.restore
    refine ⟨hwf, fun o ho => ?_⟩
    rw [hnil] at ho
    cases ho

/-- A thread that lives on gets an empty ring when an epoch begins, and the others keep theirs. -/
theorem beginThreads_spec {qlist : Nat → Quarantine} (hq : ∀ t, (qlist t).Wf) (current : Nat) (alive : List AliveThread)
    (t : Nat) :
    (beginThreads qlist current alive t).Wf ∧
      (beginThreads qlist current alive t = qlist t ∨
        (∃ a ∈ alive, a.index = t ∧ (t = current ∨ a.hasJoined = false)) ∧ (beginThreads qlist current alive t).ring = []) := by
  induction alive generalizing qlist with
  | nil => exact ⟨hq t, .inl rfl⟩
  | cons a alive ih =>
    rw [beginThreads, List.foldl_cons]
    by_cases hskip : a.index ≠ current ∧ a.hasJoined
    · rw [if_pos hskip]
      obtain ⟨hwf, h⟩ := ih hq
      refine ⟨hwf, h.imp id fun ⟨⟨b, hb, hlives⟩, hnil⟩ => ⟨⟨b, List.mem_cons_of_mem _ hb, hlives⟩, hnil⟩⟩
    · rw [if_neg hskip]
      obtain ⟨hwf, hnil⟩ := (hq a.index).restore
      have hq' : ∀ u, (Function.update qlist a.index (qlist a.index).restore u).Wf := by
        intro u
        by_cases hu : u = a.index
        · subst hu
          rw [Function.update_self]
          exact hwf
        · rw [Function.update_of_ne hu]
          exact hq u
      obtain ⟨h₁, h₂⟩ := ih hq'
      refine ⟨h₁, ?_⟩
      rcases h₂ with h₂ | ⟨⟨b, hb, hlives⟩, h₂⟩
      · by_cases ht : t = a.index
        · subst ht
          refine .inr ⟨⟨a, List.mem_cons_self, rfl, ?_⟩, ?_⟩
          · rw [not_and_or, not_not, Bool.not_eq_true] at hskip
            exact hskip
          · rw [Function.update_self] at h₂
            exact (congrArg ring h₂).trans hnil
        · rw [Function.update_of_ne ht] at h₂
          exact .inl h₂
      · exact .inr ⟨⟨b, List.mem_cons_of_mem _ hb, hlives⟩, h₂⟩

/-- A ring with one object. -/
def oneObject : Quarantine := { initial.insert ⟨0x100000020, 16⟩ with availIndex := 1 }

theorem oneObject_ring : oneObject.ring = [⟨0x100000020, 16⟩] := by decide

theorem oneObject_ringState : RingState oneObject := by
  have hadd : addFreeObject (⟨fun _ _ _ => (), fun _ _ => (false, ()), fun _ _ => .ok (), fun _ => .ok ()⟩ : QuarantineHeap Unit)
      initial () 0x100000020 16 = .ok (true, oneObject, ()) := rfl
  exact .addFreeObject .initial hadd

end Quarantine
end DoubleTake
