import DoubleTake.Theorems.QuarantineRuns

/-! The ring of one quarantine within an epoch: what a sequence of `addFreeObject` calls keeps while no canary is damaged. Between
    two calls the heap may change in any way. -/

namespace DoubleTake
namespace Quarantine

open Transition

variable {H : Type} {ops : QuarantineHeap H} {q : Quarantine}

/-- A round of the loop of `addFreeObject` finds the canary of the oldest object damaged. -/
inductive FindsDamage (ops : QuarantineHeap H) : Quarantine → H → Prop where
  | now {q : Quarantine} {h h₁ : H} : q.Full → ops.hasUsageAfterFree h q.getLRObject = (true, h₁) → FindsDamage ops q h
  | later {q q' : Quarantine} {h h' : H} : q.Full → freeLRObject ops q h = .ok (q', h') → FindsDamage ops q' h' → FindsDamage ops q h

/-- A quarantine, the objects that it has accepted, and the pointers that it has passed to `realfree`. -/
structure Calls where
  q : Quarantine
  accepted : List FreeObject
  freed : List Nat

namespace Calls

/-- A call of `addFreeObject` in the heap of that moment. -/
def call (ops : QuarantineHeap H) (s : Calls) (h : H) (o : FreeObject) : Except Fault (Bool × Calls × H) := do
  let (added, q, t) ← addFreeObject (traced ops) s.q ⟨h, s.freed, false⟩ o.ptr o.size
  .ok (added, ⟨q, if added then s.accepted ++ [o] else s.accepted, t.freed⟩, t.heap)

/-- The call finds no damaged canary. -/
def Intact (ops : QuarantineHeap H) (s : Calls) (h : H) (o : FreeObject) : Prop :=
  o.size < QUARANTINE_TOTAL_SIZE → o.size % 8 = 0 →
    ¬ FindsDamage (traced ops) (s.q.insert o) ((traced ops).markFreeObject ⟨h, s.freed, false⟩ o.ptr o.size)

/-- Sequences of calls on a quarantine as `initialize` leaves it. -/
def system (ops : QuarantineHeap H) : System Calls (H × FreeObject) where
  init s := s = ⟨initial, [], []⟩
  step s c t := s.Intact ops c.1 c.2 ∧ ∃ added h', s.call ops c.1 c.2 = .ok (added, t, h')

/-- The ring has its bounds, its running size is the one of its objects, and the objects that it no longer holds have been passed
    to `realfree`, in the order in which they were added and each once. -/
structure Kept (s : Calls) : Prop where
  slots : s.q.ring.length ≤ QUARANTINE_BUF_SIZE - 1
  total : s.q.totalSize = bytes s.q.ring
  room : s.q.totalSize ≤ QUARANTINE_TOTAL_SIZE
  order : ∃ gone, s.accepted = gone ++ s.q.ring ∧ s.freed = gone.map (·.ptr)

/-- What a call comes to. It returns, with the object as the last one of the ring or with nothing changed, and has not touched a
    slot that was in the ring; else an assertion or the release of an object of the ring fails. -/
def Outcome (ops : QuarantineHeap H) (s : Calls) (h : H) (o : FreeObject) : Prop :=
  (∃ added t h', s.call ops h o = .ok (added, t, h') ∧ t.Kept ∧
      (∀ k < s.q.ring.length, t.q.objects ((s.q.LRIndex + k) % QUARANTINE_BUF_SIZE) =
        s.q.objects ((s.q.LRIndex + k) % QUARANTINE_BUF_SIZE)) ∧
      (added = true → ∃ kept, kept <:+ s.q.ring ∧ t.q.ring = kept ++ [o]) ∧ (added = false → t = s ∧ h' = h)) ∨
    (o.size % 8 ≠ 0 ∧ s.call ops h o = .error .assertion) ∨
    ∃ v ∈ s.q.ring, ∃ h₁ f, ops.realfree h₁ v.ptr = .error f ∧ s.call ops h o = .error f

end Calls

/-- With intact canaries the loop ends within the rounds that the ring has slots for. -/
theorem evict_intact {size : Nat} (hsize : size ≤ QUARANTINE_TOTAL_SIZE) {fuel : Nat} {h : Traced H} (hq : q.InBuffer)
    (htot : q.totalSize = bytes q.ring + size) (hfuel : q.ring.length < fuel) (hno : ¬ FindsDamage (traced ops) q h) :
    (∃ q' h', evict (traced ops) fuel q h = .ok (q', h') ∧ h'.corrupted = h.corrupted) ∨
      ∃ v ∈ q.ring, ∃ h₁ f, ops.realfree h₁ v.ptr = .error f ∧ evict (traced ops) fuel q h = .error f := by
  induction fuel generalizing q h with
  | zero => omega
  | succ fuel ih =>
    by_cases hgo : q.Full
    · have hne := ring_ne_nil hq htot hsize hgo
      have hhead : q.getLRObject ∈ q.ring := by
        rw [show q.ring = _ from Ring.view_cons hq.lr hq.avail hne]
        exact List.mem_cons_self
      rw [evict_full hgo]
      rcases @freeLRObject_cases _ (traced ops) _ hq hne _ htot h with
        ⟨h₁, hdamaged, -⟩ | ⟨h₁, -, ⟨f, hfail, hrun⟩ | ⟨q', h₂, -, hrun, hring, hev⟩⟩
      · exact absurd (.now hgo hdamaged) hno
      · refine .inr ⟨_, hhead, h₁.heap, f, ?_, by rw [hrun]; rfl⟩
        exact (Except.bind_eq_error_iff fun heap h => by cases h).mp hfail
      · have hsame : h₂.corrupted = h.corrupted := by
          rcases freeLRObject_traced hq hne htot hrun with ⟨rfl, -⟩ | ⟨hsame, -⟩
          · exact absurd (congrArg List.length hring) (by rw [List.length_cons]; omega)
          · exact hsame
        have hlen : q'.ring.length < fuel := by
          rw [hring, List.length_cons] at hfuel
          omega
        have hno' : ¬ FindsDamage (traced ops) q' h₂ := fun hlater => hno (.later hgo hrun hlater)
        rw [hrun]
        rcases ih hev.inBuffer hev.total hlen hno' with ⟨q'', h'', hrest, hsame'⟩ | ⟨v, hv, h₃, f, hfail, hrest⟩
        · exact .inl ⟨q'', h'', hrest, hsame'.trans hsame⟩
        · exact .inr ⟨v, hev.suffix.mem hv, h₃, f, hfail, hrest⟩
    · rw [evict_not_full hgo]
      exact .inl ⟨q, h, rfl, rfl⟩

/-- The slot at `_availIndex` is none of the ring. -/
theorem slot_ne_avail (hq : q.InBuffer) {k : Nat} (hk : k < q.ring.length) : (q.LRIndex + k) % QUARANTINE_BUF_SIZE ≠ q.availIndex := by
  obtain ⟨havail, hlr⟩ := hq
  rw [ring, Ring.length_view] at hk
  simp only [QUARANTINE_BUF_SIZE] at havail hlr hk ⊢
  omega

namespace Calls

variable {s : Calls}

/-- One call. -/
theorem call_outcome (hwf : s.q.Wf) (hs : s.Kept) {h : H} {o : FreeObject} (hin : s.Intact ops h o) :
    s.Outcome ops h o ∧ ∀ added t h', s.call ops h o = .ok (added, t, h') → t.q.Wf := by
  by_cases hbig : o.size ≥ QUARANTINE_TOTAL_SIZE
  · have hcall : s.call ops h o = .ok (false, s, h) := by
      rw [call, addFreeObject, addFreeObjectWithin, if_pos hbig]
      rfl
    rw [hcall]
    refine ⟨.inl ⟨false, s, h, hcall, hs, fun _ _ => rfl, by rintro ⟨⟩, fun _ => ⟨rfl, rfl⟩⟩, ?_⟩
    rintro _ _ _ ⟨⟩
    exact hwf
  by_cases h8 : o.size % 8 = 0
  · have hlt : o.size < QUARANTINE_TOTAL_SIZE := Nat.not_le.mp hbig
    have hadd : ∀ fuel, addFreeObjectWithin fuel (traced ops) s.q ⟨h, s.freed, false⟩ o.ptr o.size =
        (evict (traced ops) fuel (s.q.insert o) ((traced ops).markFreeObject ⟨h, s.freed, false⟩ o.ptr o.size) >>= fun c =>
          .ok (true, { c.1 with availIndex := incrIndex c.1.availIndex }, c.2)) := by
      intro fuel
      rw [addFreeObjectWithin, if_neg hbig, if_neg (not_not.mpr h8)]
      rfl
    have hq : (s.q.insert o).InBuffer := ⟨hwf.inBuffer.avail, hwf.inBuffer.lr⟩
    have hring := ring_insert hwf.inBuffer o
    have htot := insert_total hwf o
    rcases @evict_intact _ ops _ _ (Nat.le_of_lt hlt) QUARANTINE_BUF_SIZE _ hq htot ring_length_lt (hin hlt h8) with
      ⟨q', t, hloop, hsame⟩ | ⟨v, hv, h₁, f, hfail, hloop⟩
    · obtain ⟨hev, hfit⟩ := evict_ok (Nat.le_of_lt hlt) hq htot hloop
      obtain ⟨-, -, hclean⟩ := evict_traced (Nat.le_of_lt hlt) hq htot hloop
      obtain ⟨-, gone, hgone, hfreed⟩ := hclean hsame
      obtain ⟨hroom, hslot⟩ := not_full hfit
      obtain ⟨hwf', hconcat⟩ := hev.join hwf hslot
      rw [hring] at hgone
      have hcall : s.call ops h o = .ok (true, ⟨{ q' with availIndex := incrIndex q'.availIndex }, s.accepted ++ [o], t.freed⟩, t.heap) := by
        rw [call, addFreeObject, hadd, hloop]
        rfl
      rw [hcall]
      refine ⟨.inl ⟨true, _, _, hcall, ⟨?_, hwf'.total, hroom, ?_⟩, fun k hk => ?_, fun _ => ⟨q'.ring, ?_, hconcat⟩, by rintro ⟨⟩⟩, ?_⟩
      · exact Nat.le_sub_one_of_lt ring_length_lt
      · obtain ⟨before, haccepted, hbefore⟩ := hs.order
        refine ⟨before ++ gone, ?_, ?_⟩
        · show s.accepted ++ [o] = before ++ gone ++ ring _
          rw [hconcat, haccepted, hgone, List.append_assoc, List.append_assoc, List.append_assoc]
        · show t.freed = _
          rw [hfreed, List.map_append, ← hbefore]
          rfl
      · show q'.objects _ = _
        rw [hev.objects]
        exact Function.update_of_ne (slot_ne_avail hwf.inBuffer hk) _ _
      · exact hring ▸ hev.suffix
      · rintro _ _ _ ⟨⟩
        exact hwf'
    · have hcall : s.call ops h o = .error f := by
        rw [call, addFreeObject, hadd, hloop]
        rfl
      rw [hcall]
      refine ⟨.inr (.inr ⟨v, hring ▸ hv, h₁, f, hfail, hcall⟩), ?_⟩
      rintro _ _ _ ⟨⟩
  · have hcall : s.call ops h o = .error .assertion := by
      rw [call, addFreeObject, addFreeObjectWithin, if_neg hbig, if_pos h8]
      rfl
    rw [hcall]
    refine ⟨.inr (.inl ⟨h8, hcall⟩), ?_⟩
    rintro _ _ _ ⟨⟩

theorem reachable_kept (h : Reachable (system ops) s) : s.q.Wf ∧ s.Kept := by
  refine Reachable.invariant (P := fun s => s.q.Wf ∧ s.Kept) ?_ ?_ h
  · rintro s rfl
    refine ⟨initial_wf, ⟨?_, initial_wf.total, Nat.zero_le _, ⟨[], ?_, rfl⟩⟩⟩
    · rw [initial_ring]
      exact Nat.zero_le _
    · rw [initial_ring]
      rfl
  · rintro s ⟨heap, o⟩ t ⟨hwf, hkept⟩ ⟨hin, added, h', hcall⟩
    obtain ⟨hout, hwf'⟩ := call_outcome hwf hkept hin
    refine ⟨hwf' _ _ _ hcall, ?_⟩
    rcases hout with ⟨added', t', h'', hcall', hkept', -⟩ | ⟨-, hfail⟩ | ⟨v, -, h₁, f, -, hfail⟩
    · rw [hcall] at hcall'
      cases hcall'
      exact hkept'
    · rw [hcall] at hfail
      cases hfail
    · rw [hcall] at hfail
      cases hfail

/-- After every call of a sequence the ring is in order, and the next call comes to what it should. -/
theorem addFreeObject_keeps_ring (h : Reachable (system ops) s) :
    s.Kept ∧ ∀ heap o, s.Intact ops heap o → s.Outcome ops heap o := by
  obtain ⟨hwf, hkept⟩ := reachable_kept h
  exact ⟨hkept, fun heap o hin => (call_outcome hwf hkept hin).1⟩

/-- After the first call, with an object of 16 bytes. -/
def oneCall : Calls := ⟨oneObject, [⟨0x100000020, 16⟩], []⟩

theorem oneCall_reachable : Reachable (system (XMemory.quarantineHeap 0)) oneCall := by
  refine .step (State.start.rt.memory, ⟨0x100000020, 16⟩) (.init rfl) ⟨fun _ _ hdamage => ?_, true, _, rfl⟩
  cases hdamage with
  | now hfull => revert hfull; decide
  | later hfull => revert hfull; decide

/-- A heap with the object of 16 bytes in it, which holds its canary. -/
def heldHeap : XMemory :=
  let x := State.start.rt.memory
  (XMemory.quarantineHeap 0).markFreeObject
    { x with heap := { x.heap with map := { x.heap.map with mem := ObjectHeader.construct x.mem 0x100000010 16 } } } 0x100000020 16

/-- An object that needs all the room, for which the first one leaves the ring. -/
theorem addFreeObject_keeps_ring_evicts : ∃ t h', oneCall.call (XMemory.quarantineHeap 0) heldHeap ⟨0x100002000, 16777208⟩ =
    .ok (true, t, h') ∧ oneCall.q.ring = [⟨0x100000020, 16⟩] ∧ t.q.ring = [⟨0x100002000, 16777208⟩] := by
  obtain ⟨-, hcalls⟩ := addFreeObject_keeps_ring oneCall_reachable
  have hring : oneCall.q.ring = [⟨0x100000020, 16⟩] := oneObject_ring
  have hin : Intact (XMemory.quarantineHeap 0) oneCall heldHeap ⟨0x100002000, 16777208⟩ := by
    intro _ _ hdamage
    have hcheck : ((traced (XMemory.quarantineHeap 0)).hasUsageAfterFree ((traced (XMemory.quarantineHeap 0)).markFreeObject
        ⟨heldHeap, [], false⟩ 0x100002000 16777208) ⟨0x100000020, 16⟩).1 = false := by decide +kernel
    have hround : (freeLRObject (traced (XMemory.quarantineHeap 0)) (oneCall.q.insert ⟨0x100002000, 16777208⟩)
        ((traced (XMemory.quarantineHeap 0)).markFreeObject ⟨heldHeap, [], false⟩ 0x100002000 16777208)).toOption.map
          (fun c => decide c.1.Full) = some false := by decide +kernel
    cases hdamage with
    | now _ hdamaged => exact Bool.false_ne_true (hcheck.symm.trans (congrArg Prod.fst hdamaged))
    | later _ hrun hlater =>
      have hfull := of_decide_eq_false (Option.some.inj ((congrArg (fun e => e.toOption.map fun c => decide c.1.Full) hrun).symm.trans hround))
      cases hlater with
      | now hgo => exact hfull hgo
      | later hgo => exact hfull hgo
  have hadded : (oneCall.call (XMemory.quarantineHeap 0) heldHeap ⟨0x100002000, 16777208⟩).toOption.map (·.1) = some true := by
    decide +kernel
  obtain ⟨⟨added, t, h'⟩, hcall, htrue⟩ := Option.map_eq_some_iff.mp hadded
  have hcall := Except.of_toOption hcall
  cases htrue
  refine ⟨t, h', hcall, hring, ?_⟩
  rcases hcalls _ _ hin with ⟨added', t', h'', hcall', hkept, -, hnew, -⟩ | ⟨h8, -⟩ | ⟨v, -, h₁, f, -, hfail⟩
  · rw [hcall] at hcall'
    cases hcall'
    obtain ⟨kept, hsuffix, hconcat⟩ := hnew rfl
    rw [hring, List.suffix_cons_iff, List.suffix_nil] at hsuffix
    rcases hsuffix with rfl | rfl
    · -- Both objects together have too many bytes.
      have hroom := hkept.room
      rw [hkept.total, hconcat] at hroom
      exact absurd hroom (by decide)
    · exact hconcat
  · exact absurd rfl h8
  · rw [hcall] at hfail
    cases hfail

end Calls

end Quarantine
end DoubleTake
