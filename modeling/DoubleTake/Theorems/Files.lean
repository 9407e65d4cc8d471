import Mathlib.Algebra.Ring.Nat
import DoubleTake.Files

/-! Files after a rollback: which ones stand where they stood at the start of the epoch, and when the output of the epoch
    is not written again. -/

namespace DoubleTake

open Transition

namespace Files

namespace State

variable {s s' : State} {c : Call} {fd : Int} {n : Nat} {data : List UInt8}

/-- How far the calls of the epoch have moved an open file. -/
def moved (s : State) (d : Nat) : Nat := ((s.moves.filter (·.1 == d)).map (·.2)).sum

/-- What the calls of an epoch keep. -/
structure Kept (s : State) : Prop where
  begun : ∀ fd ∈ s.begun, (s.find fd).isSome = true
  offset : ∀ fd ∈ s.begun, s.offset (s.description fd) = s.beginOffset (s.description fd) + s.moved (s.description fd)
  permitted : ∀ fd data, .writev fd data ∈ s.epoch → s.checkPermission fd = true

theorem moved_append {d e : Nat} (ms : List (Nat × Nat)) :
    (((ms ++ [(d, n)]).filter (·.1 == e)).map (·.2)).sum =
      ((ms.filter (·.1 == e)).map (·.2)).sum + if d = e then n else 0 := by
  by_cases hd : d = e <;> simp [List.filter_append, hd]

theorem Kept.addCall (h : s.Kept) (hc : ∀ fd data, c = .writev fd data → s.checkPermission fd = true) :
    (s.addCall c).Kept := by
  refine ⟨h.begun, h.offset, fun fd data hmem => ?_⟩
  rcases List.mem_append.mp hmem with hmem | hmem
  · exact h.permitted fd data hmem
  · exact hc fd data (List.mem_singleton.mp hmem).symm

theorem Kept.transfer (h : s.Kept) (fd : Int) (n : Nat) : (s.transfer fd n).Kept := by
  refine ⟨h.begun, fun fd' hfd' => ?_, h.permitted⟩
  have hmoves := moved_append (n := n) (d := s.description fd) (e := s.description fd') s.moves
  show (s.move fd n).offset (s.description fd') = s.beginOffset (s.description fd') +
    (((s.moves ++ [(s.description fd, n)]).filter (·.1 == s.description fd')).map (·.2)).sum
  rw [hmoves]
  have hoff := h.offset fd' hfd'
  rw [State.moved] at hoff
  by_cases hd : s.description fd = s.description fd'
  · simp only [State.move, State.setOffset, hd, Function.update_self, if_true]
    omega
  · simp only [State.move, State.setOffset, Function.update_of_ne (Ne.symm hd), if_neg hd]
    omega

theorem Kept.epochBegin (s : State) : s.epochBegin.Kept := by
  refine ⟨fun fd hfd => ?_, fun fd _ => ?_, nofun⟩
  · obtain ⟨e, he, rfl⟩ := List.mem_map.mp hfd
    exact List.lookup_isSome_iff.mpr ⟨e, he, beq_self_eq_true e.1⟩
  · simp [State.epochBegin, State.moved]

theorem Kept.commit {call : State → State} (hs : s.commit call = some s') : s'.Kept := by
  obtain ⟨x, -, hx⟩ := Option.bind_eq_some_iff.mp hs
  cases hx
  exact Kept.epochBegin _

theorem find_saveFd {d : Nat} {fd' : Int} (h : (s.find fd').isSome = true) : ((s.saveFd fd d).find fd').isSome = true := by
  rw [State.saveFd]
  split
  · obtain ⟨info, hinfo⟩ := Option.isSome_iff_exists.mp h
    have hlookup : s.filesMap.lookup fd' = some info := hinfo
    simp [State.find, List.lookup_append, hlookup]
  · exact h

theorem checkPermission_mono (h : ∀ fd', (s.find fd').isSome = true → (s'.find fd').isSome = true)
    (hp : s.checkPermission fd = true) : s'.checkPermission fd = true := by
  rw [State.checkPermission] at hp ⊢
  split
  · rename_i hfd
    rw [if_pos hfd] at hp
    exact hp
  · rename_i hfd
    rw [if_neg hfd] at hp
    split
    · rfl
    · rename_i hstd
      rw [if_neg hstd] at hp
      exact h fd hp

/-- A new file is none of those that were there at the start of the epoch. -/
theorem Kept.saveFd {d : Nat} (h : s.Kept) (hf : fd = -1 ∨ s.isFresh fd d = true) : (s.saveFd fd d).Kept := by
  refine ⟨fun fd' hfd' => ?_, fun fd' hfd' => ?_, fun fd' data hmem => ?_⟩
  · have hb : fd' ∈ s.begun := by
      rw [State.saveFd] at hfd'
      split at hfd' <;> exact hfd'
    exact find_saveFd (h.begun fd' hb)
  · rw [State.saveFd] at hfd' ⊢
    split
    · rename_i hne
      rw [if_pos hne] at hfd'
      have hfresh := hf.resolve_left hne
      rw [State.isFresh, Bool.and_eq_true, List.all_eq_true] at hfresh
      have hsome := h.begun fd' hfd'
      have hfd : fd' ≠ fd := by
        rintro rfl
        rw [Option.isNone_iff_eq_none] at hfresh
        rw [hfresh.1] at hsome
        cases hsome
      have hd : s.description fd' ≠ d := by
        obtain ⟨e, he, heq⟩ := List.lookup_isSome_iff.mp hsome
        rw [beq_iff_eq] at heq
        have := hfresh.2 e he
        rwa [bne_iff_ne, ← heq] at this
      have hoff := h.offset fd' hfd'
      simpa [Function.update_of_ne hfd, Function.update_of_ne hd, State.moved] using hoff
    · rename_i heq
      rw [if_neg heq] at hfd'
      exact h.offset fd' hfd'
  · have hmem' : .writev fd' data ∈ s.epoch := by
      rw [State.saveFd] at hmem
      split at hmem <;> exact hmem
    exact checkPermission_mono (fun _ => find_saveFd) (h.permitted fd' data hmem')

theorem Kept.exec (h : s.Kept) (hs : s.exec c = some s') : s'.Kept := by
  cases c with
  | «open» ret d =>
    simp only [State.exec] at hs
    split at hs
    · rename_i hf
      cases hs
      exact (h.saveFd hf).addCall nofun
    · cases hs
  | close fd =>
    simp only [State.exec] at hs
    split at hs
    · split at hs <;> cases hs
      · exact h.addCall nofun
      · exact (Kept.mk h.begun h.offset h.permitted : Kept { s with closeList := s.closeList ++ [fd] }).addCall nofun
    · exact Kept.commit hs
  | read fd n =>
    simp only [State.exec] at hs
    split at hs
    · cases hs
      exact (h.transfer fd n).addCall nofun
    · exact Kept.commit hs
  | write fd data => exact Kept.commit hs
  | writev fd data =>
    simp only [State.exec] at hs
    split at hs
    · rename_i hp
      cases hs
      have hemit : (s.emit fd data).Kept := ⟨h.begun, h.offset, h.permitted⟩
      refine (hemit.transfer fd data.length).addCall ?_
      rintro fd' data' ⟨⟩
      exact hp
    · exact Kept.commit hs
  | lseek fd pos => exact Kept.commit hs
  | other commits =>
    cases commits with
    | true => exact Kept.commit hs
    | false =>
      cases hs
      exact h.addCall nofun

theorem reachable_kept (h : Reachable system s) : s.Kept :=
  Reachable.invariant (S := system) (P := Kept)
    (fun s h => ⟨by rw [h.begun]; nofun, by rw [h.begun]; nofun, by rw [h.epoch]; nofun⟩) (fun _ _ _ h hs => h.exec hs) h

/-! ### Where the files stand -/

/-- Each file that was open at the start of the epoch stands where it stood there. -/
def Restored (s : State) : Prop := ∀ fd ∈ s.begun, s.offset (s.description fd) = s.beginOffset (s.description fd)

theorem rollback_restores_iff (h : Reachable system s) :
    s.rollback.Restored ↔ ∀ m ∈ s.moves, (∃ fd ∈ s.begun, s.description fd = m.1) → m.2 = 0 := by
  have hoffset := (reachable_kept h).offset
  constructor
  · rintro hr m hm ⟨fd, hfd, hd⟩
    have hzero : s.moved m.1 = 0 := by
      have := hr fd hfd
      rw [State.rollback, hoffset fd hfd, hd] at this
      omega
    have hmem : m ∈ s.moves.filter (·.1 == m.1) := List.mem_filter.mpr ⟨hm, beq_self_eq_true m.1⟩
    exact List.sum_eq_zero_iff_forall_eq_nat.mp hzero m.2 (List.mem_map_of_mem hmem)
  · intro hm fd hfd
    have hzero : s.moved (s.description fd) = 0 := by
      refine List.sum_eq_zero_iff_forall_eq_nat.mpr fun n hn => ?_
      obtain ⟨m, hmem, rfl⟩ := List.mem_map.mp hn
      obtain ⟨hmem, hd⟩ := List.mem_filter.mp hmem
      exact hm m hmem ⟨fd, hfd, (beq_iff_eq.mp hd).symm⟩
    rw [State.rollback, hoffset fd hfd, hzero]
    omega

/-- Nothing is open. -/
def start : State where
  filesMap := []
  closeList := []
  description := fun _ => 0
  offset := fun _ => 0
  emitted := []
  epoch := []
  moves := []
  begun := []
  beginOffset := fun _ => 0

theorem start_began : start.Began := ⟨rfl, rfl, rfl, rfl, rfl⟩

/-- Descriptor 4 is opened in one epoch; in the next one a file of its own is opened and read. -/
def readsNew : List Call := [.open 4 7, .other true, .open 5 8, .read 5 10]

theorem rollback_restores_new : ∃ s, Reachable system s ∧ s.begun = [4] ∧ s.moves = [(8, 10)] ∧
    s.rollback.Restored := by
  have hrun : (readsNew.foldlM State.exec start).map (fun s => (s.begun, s.moves, s.description 4)) =
      some ([4], [(8, 10)], 7) := by
    decide +kernel
  obtain ⟨s, hs, heq⟩ := Option.map_eq_some_iff.mp hrun
  simp only [Prod.mk.injEq] at heq
  obtain ⟨hbegun, hmoves, hd⟩ := heq
  have hreach : Reachable system s := .of_foldlM (fun _ _ _ _ h => h) (.init start_began) hs
  refine ⟨s, hreach, hbegun, hmoves, (rollback_restores_iff hreach).mpr ?_⟩
  rintro m hm ⟨fd, hfd, heq⟩
  rw [hmoves, List.mem_singleton] at hm
  rw [hbegun, List.mem_singleton] at hfd
  subst hm hfd
  rw [hd] at heq
  cases heq

/-- Descriptor 4 is opened in one epoch and read in the next one. -/
def readsOld : List Call := [.open 4 7, .other true, .read 4 10]

theorem rollback_leaves_offset : ¬ ∀ s, Reachable system s → s.rollback.Restored := by
  intro h
  have hrun : (readsOld.foldlM State.exec start).map
      (fun s => (s.begun, s.offset (s.description 4), s.beginOffset (s.description 4))) = some ([4], 10, 0) := by
    decide +kernel
  obtain ⟨s, hs, heq⟩ := Option.map_eq_some_iff.mp hrun
  simp only [Prod.mk.injEq] at heq
  obtain ⟨hbegun, hoffset, hbegin⟩ := heq
  have hreach : Reachable system s := .of_foldlM (fun _ _ _ _ h => h) (.init start_began) hs
  have hmem : 4 ∈ s.rollback.begun := by
    rw [State.rollback, hbegun]
    exact .head _
  have hsame := h s hreach 4 hmem
  rw [State.rollback, hoffset, hbegin] at hsame
  cases hsame

/-! ### What is written -/

/-- What a call writes in the replay. -/
def output (s : State) : Call → Option (Int × List UInt8)
  | .writev fd data => if s.checkPermission fd then some (fd, data) else none
  | _ => none

theorem replayCall_spec (s : State) (c : Call) :
    (s.replayCall c).filesMap = s.filesMap ∧ (s.replayCall c).emitted = s.emitted ++ (s.output c).toList := by
  cases c with
  | «open» ret d =>
    simp only [State.replayCall]
    split <;> exact ⟨rfl, (List.append_nil _).symm⟩
  | read fd n =>
    simp only [State.replayCall]
    split <;> exact ⟨rfl, (List.append_nil _).symm⟩
  | writev fd data =>
    simp only [State.replayCall, State.output]
    split
    · exact ⟨rfl, rfl⟩
    · exact ⟨rfl, (List.append_nil _).symm⟩
  | close | write | lseek | other => exact ⟨rfl, (List.append_nil _).symm⟩

theorem output_congr (h : s'.filesMap = s.filesMap) : s'.output = s.output := by
  have hp : s'.checkPermission = s.checkPermission := by
    unfold State.checkPermission State.find
    rw [h]
  funext c
  unfold State.output
  rw [hp]

theorem replay_emitted (s : State) (cs : List Call) : (s.replay cs).emitted = s.emitted ++ cs.filterMap s.output := by
  induction cs generalizing s with
  | nil => exact (List.append_nil _).symm
  | cons c cs ih =>
    obtain ⟨hmap, hemit⟩ := replayCall_spec s c
    rw [State.replay, List.foldl_cons, ← State.replay, ih, hemit, output_congr hmap, List.append_assoc]
    cases hc : s.output c <;> simp [hc]

/-- What each descriptor has been given to write. -/
def emittedTo (s : State) (fd : Int) : List (Int × List UInt8) := s.emitted.filter (·.1 == fd)

/-- For any order of the calls of the epoch in the replay: nothing is written again exactly if the epoch has no `writev`. -/
theorem output_once_iff (h : Reachable system s) {cs : List Call} (hcs : cs.Perm s.epoch) :
    (∀ fd, (s.rollback.replay cs).emittedTo fd = s.emittedTo fd) ↔ ∀ fd data, .writev fd data ∉ s.epoch := by
  have hperm := (reachable_kept h).permitted
  constructor
  · intro hsame fd data hmem
    have heq := hsame fd
    rw [State.emittedTo, State.rollback, replay_emitted, List.filter_append, State.emittedTo] at heq
    have hnil := List.append_right_eq_self.mp heq
    have hout : (fd, data) ∈ cs.filterMap s.output := by
      refine List.mem_filterMap.mpr ⟨_, hcs.mem_iff.mpr hmem, ?_⟩
      simp [State.output, hperm fd data hmem]
    have := List.filter_eq_nil_iff.mp hnil (fd, data) hout
    simp at this
  · intro hno fd
    have hnil : cs.filterMap s.output = [] := by
      refine List.filterMap_eq_nil_iff.mpr fun c hc => ?_
      cases c with
      | writev fd data => exact absurd (hcs.mem_iff.mp hc) (hno fd data)
      | «open» | read | close | write | lseek | other => rfl
    rw [State.emittedTo, State.rollback, replay_emitted, hnil, List.append_nil, State.emittedTo]

/-- A line is written to the standard output and the program goes on. -/
def writes : List Call := [.write 1 [104, 105], .open 4 7, .read 4 2]

theorem output_once_write : ∃ s, Reachable system s ∧ s.emitted = [(1, [104, 105])] ∧
    s.epoch = [.open 4 7, .read 4 2] ∧ ∀ fd, (s.rollback.replay s.epoch).emittedTo fd = s.emittedTo fd := by
  have hrun : (writes.foldlM State.exec start).map (fun s => (s.emitted, s.epoch)) =
      some ([(1, [104, 105])], [.open 4 7, .read 4 2]) := by
    decide +kernel
  obtain ⟨s, hs, heq⟩ := Option.map_eq_some_iff.mp hrun
  simp only [Prod.mk.injEq] at heq
  obtain ⟨hemitted, hepoch⟩ := heq
  have hreach : Reachable system s := .of_foldlM (fun _ _ _ _ h => h) (.init start_began) hs
  refine ⟨s, hreach, hemitted, hepoch, (output_once_iff hreach (List.Perm.refl _)).mpr fun fd data hmem => ?_⟩
  rw [hepoch] at hmem
  simp at hmem

theorem writev_emitted_twice : ¬ ∀ s cs, Reachable system s → cs.Perm s.epoch →
    ∀ fd, (s.rollback.replay cs).emittedTo fd = s.emittedTo fd := by
  intro h
  have hrun : ([Call.writev 1 [104, 105]].foldlM State.exec start).map
      (fun s => (s.emittedTo 1, (s.rollback.replay s.epoch).emittedTo 1)) =
        some ([(1, [104, 105])], [(1, [104, 105]), (1, [104, 105])]) := by
    decide +kernel
  obtain ⟨s, hs, heq⟩ := Option.map_eq_some_iff.mp hrun
  simp only [Prod.mk.injEq] at heq
  have hsame := h s s.epoch (.of_foldlM (fun _ _ _ _ h => h) (.init start_began) hs) (List.Perm.refl _) 1
  rw [heq.1, heq.2] at hsame
  cases hsame

end State

end Files

end DoubleTake
