import DoubleTake.Theorems.Runs

/-! A pointer that is freed twice. The header of a freed block keeps its sentinel, so that the test of `free` for a double
    free passes, wherever the block is; a block in quarantine begins with a canary word, which the test of its guard takes
    for a sentinel, and enters the ring once more. -/

namespace DoubleTake

open SentinelMap XMemory Transition

/-- No block is twice among the quarantined and the free ones. -/
structure Runtime.FreedOnce (r : Runtime) : Prop where
  ring : ∀ t, ((r.rings t).map (·.ptr)).Nodup
  bin : ∀ t c, (r.memory.heap.bins t c).Nodup
  rings : ∀ t u, t ≠ u → ∀ o ∈ r.rings t, ∀ o' ∈ r.rings u, o.ptr ≠ o'.ptr
  bins : ∀ t c u d, (t, c) ≠ (u, d) → ∀ p ∈ r.memory.heap.bins t c, p ∉ r.memory.heap.bins u d
  apart : ∀ t u c, ∀ o ∈ r.rings t, o.ptr ∉ r.memory.heap.bins u c

/-- The call is reported as an invalid free and leaves the quarantines, the free lists and the bitmap as they are. -/
def Runtime.FreeRefused (r : Runtime) (tid p : Nat) : Prop :=
  r.reportsInvalidFree p = true ∧ ∃ r', r.free tid p = .ok r' ∧ r'.rings = r.rings ∧
    r'.memory.heap.bins = r.memory.heap.bins ∧ r'.memory.heap.map.bitmap = r.memory.heap.map.bitmap

variable {strict : Bool} {B : Layout} {r : Runtime} {live : List Nat}

/-- Each of the lists says who has a block. -/
theorem MemoryInv.freedOnce (h : MemoryInv strict r live B) : r.FreedOnce where
  ring := h.lists.ringsNodup
  bin := h.lists.binsNodup
  rings t u hne o ho o' ho' heq := by
    have huse := (Layout.unique (h.lists.rings ho) (heq ▸ h.lists.rings ho')).2
    cases huse
    exact hne rfl
  bins t c u d hne p hp hp' := by
    obtain ⟨hsize, huse⟩ := Layout.unique (h.lists.bins hp) (h.lists.bins hp')
    cases huse
    have hc : c + 3 = d + 3 := Nat.pow_right_injective (le_refl 2) hsize
    exact hne (by rw [Nat.add_right_cancel hc])
  apart t u c o ho hp := by
    cases (Layout.unique (h.lists.rings ho) (h.lists.bins hp)).2

/-- A block passes the test, whoever has it. -/
theorem MemoryInv.not_reported (h : MemoryInv strict r live B) {p : Nat} (hp : (B p).isSome = true) :
    r.reportsInvalidFree p = false := by
  obtain ⟨b, hB⟩ := Option.isSome_iff_exists.mp hp
  have hgood : ObjectHeader.isGoodObject r.memory.heap.map.mem p = true := beq_iff_eq.mpr (h.heap.block hB).first
  rw [Runtime.reportsInvalidFree, getObjectPtrAtFree_first (h.heap.block hB).first]
  dsimp only
  rw [hgood, Bool.not_true, Bool.and_false]

namespace State

variable {s t : State} {os : List Op}

/-- Along a run a block stays a block. -/
theorem steps_layout (h : MemoryInv false s.rt s.live B) (hst : Steps system s os t) :
    ∃ B', MemoryInv false t.rt t.live B' ∧ B.Grows B' := by
  induction hst generalizing B with
  | nil => exact ⟨B, h, .refl B⟩
  | cons hstep _ ih =>
    obtain ⟨B₁, h₁, hgrows₁⟩ := (step_inv h hstep.1 nofun hstep.2).layout
    obtain ⟨B₂, h₂, hgrows₂⟩ := ih h₁
    exact ⟨B₂, h₂, hgrows₁.trans hgrows₂⟩

/-- As long as only live pointers are freed no block is freed twice. A pointer that has been live and is not live any more
    can be freed again in any of these states, and the call is not refused. -/
theorem double_free_not_refused (h : Reachable system s) (hst : Steps system s os t) :
    t.rt.FreedOnce ∧ ∀ p ∈ s.live, p ∉ t.live → ∀ tid, ¬ t.rt.FreeRefused tid p := by
  obtain ⟨B, hm⟩ := reachable_inv h
  obtain ⟨B', hm', hgrows⟩ := steps_layout hm hst
  refine ⟨hm'.freedOnce, fun p hp _ tid hrefused => ?_⟩
  obtain ⟨size, hB⟩ := hm.lists.live hp
  have hreport := hm'.not_reported (hgrows p (by rw [hB]; rfl))
  rw [hrefused.1] at hreport
  cases hreport

/-- An object of 5 bytes is allocated, and freed; the second call puts it in quarantine again. -/
theorem malloc_free_five : ∃ s t, Reachable system s ∧ Steps system s [.free 0 0x100000020] t ∧
    0x100000020 ∈ s.live ∧ 0x100000020 ∉ t.live ∧
    ∃ r, t.rt.free 0 0x100000020 = .ok r ∧ (r.rings 0).map (·.ptr) = [0x100000020, 0x100000020] := by
  have hrun : (start.run [.malloc 0 5]).map (·.live) = some [0x100000020] := by decide +kernel
  have hrun' : (start.run [.malloc 0 5, .free 0 0x100000020]).map (fun t => (t.live,
      (t.rt.free 0 0x100000020).toOption.map fun r => (r.rings 0).map (·.ptr))) = some ([], some [0x100000020, 0x100000020]) := by
    decide +kernel
  obtain ⟨s, hs, hlive⟩ := Option.map_eq_some_iff.mp hrun
  obtain ⟨t, ht, heq⟩ := Option.map_eq_some_iff.mp hrun'
  obtain ⟨hlive', hdouble⟩ := Prod.mk.inj heq
  obtain ⟨r, hr, hring⟩ := Option.map_eq_some_iff.mp hdouble
  have hsteps : Steps system s [.free 0 0x100000020] t := by
    cases run_steps ht with
    | cons hfirst hrest =>
      rename_i s'
      have hsame : s' = s := Except.ok.inj (hfirst.2.symm.trans (exec_of_run hs).2)
      exact hsame ▸ hrest
  refine ⟨s, t, run_reachable (.init start_initial) hs, hsteps, hlive ▸ List.mem_singleton_self _, ?_, r, ?_, hring⟩
  · rw [hlive']
    exact List.not_mem_nil
  · cases hfree : t.rt.free 0 0x100000020 with
    | error e =>
      rw [hfree] at hr
      cases hr
    | ok r' =>
      rw [hfree] at hr
      rw [Option.some.inj hr]

theorem double_free_not_refused_five : ∃ s t, Reachable system s ∧ Steps system s [.free 0 0x100000020] t ∧
    t.rt.FreedOnce ∧ ¬ t.rt.FreeRefused 0 0x100000020 := by
  obtain ⟨s, t, hs, hst, hp, hp', -⟩ := malloc_free_five
  obtain ⟨honce, hrefused⟩ := double_free_not_refused hs hst
  exact ⟨s, t, hs, hst, honce, hrefused _ hp hp' 0⟩

/-- The second free is not refused, and the block is twice in the quarantine after it. -/
theorem double_free_quarantined_twice : ¬ ∀ s os t p tid, Reachable system s → Steps system s os t → p ∈ s.live → p ∉ t.live →
    t.rt.FreeRefused tid p ∧ ∀ r, t.rt.free tid p = .ok r → r.FreedOnce := by
  intro h
  obtain ⟨s, t, hs, hst, hp, hp', r, hfree, hring⟩ := malloc_free_five
  have hnodup := ((h s _ t _ 0 hs hst hp hp').2 r hfree).ring 0
  rw [hring] at hnodup
  revert hnodup
  decide

end State

end DoubleTake
