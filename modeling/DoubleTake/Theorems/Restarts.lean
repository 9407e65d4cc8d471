import DoubleTake.Theorems.Recording

/-! What the steps of the replay do to the threads: which of them go back to their contexts, and what is left of their
    programs. -/

namespace DoubleTake

open Transition

theorem ThreadStatus.wakeup_wakeup (x : ThreadStatus) : x.wakeup.wakeup = x.wakeup := by cases x <;> rfl

namespace Epoch

variable {E : Epoch} {t m committer : Nat}

/-- The rollback sends the thread back to its context: its end of the epoch has failed, or it does not run. -/
def GoesBack (E : Epoch) (committer t : Nat) : Prop := t = committer ∨ E.status t ≠ .running

/-- Nobody who goes back to a context of an earlier epoch held a mutex there. -/
def SavedFree (E : Epoch) (committer : Nat) : Prop :=
  ∀ t, E.stale t = true → E.GoesBack committer t → ∀ m, E.saved t m = false

/-- Then who goes back holds what he held when this epoch began. -/
theorem SavedFree.saved_eq_false (hf : E.SavedFree committer) (hp : E.Placed) (ht : E.GoesBack committer t)
    (hm : E.startOwner m ≠ some t) : E.saved t m = false := by
  cases hst : E.stale t with
  | true => exact hf t hst ht m
  | false => rw [hp.saved t hst m, beq_eq_false_iff_ne.mpr hm]

end Epoch

namespace Replay

variable {E : Epoch} {s s' : Replay} {t u committer : Nat}

@[simp] theorem setOps_ops (s : Replay) (t u : Nat) (ops : List ReplayOp) :
    (s.setOps t ops).ops u = if u = t then ops else s.ops u := by
  simp [setOps, Function.update_apply]

theorem signalCurrentThread_frame (s : Replay) (e : EventRef) : (s.signalCurrentThread e).iter = s.iter ∧
    (s.signalCurrentThread e).curentry = s.curentry ∧ (s.signalCurrentThread e).log = s.log ∧
    (s.signalCurrentThread e).ops = s.ops ∧ (s.signalCurrentThread e).issued = s.issued := by
  rw [signalCurrentThread]
  split <;> exact ⟨rfl, rfl, rfl, rfl, rfl⟩

theorem signalNextThread_frame (s : Replay) (e : EventRef) : (s.signalNextThread e).iter = s.iter ∧
    (s.signalNextThread e).curentry = s.curentry ∧ (s.signalNextThread e).log = s.log ∧
    (s.signalNextThread e).ops = s.ops ∧ (s.signalNextThread e).issued = s.issued ∧ (s.signalNextThread e).ret = s.ret := by
  rw [signalNextThread]
  split <;> exact ⟨rfl, rfl, rfl, rfl, rfl, rfl⟩

/-- What an operation does to the programs of the threads. -/
structure Went (E : Epoch) (s s' : Replay) (t : Nat) (op : ReplayOp) (ops : List ReplayOp) : Prop where
  head : s.ops t = op :: ops
  ops : ∃ next : List EventRef, s'.ops t = next.map .signalNextThread ++ ops
  iter : s'.iter t = if op = .advanceThreadSyncList then s.iter t + 1 else s.iter t
  peek : ∀ l, op = .peekSyncEvent l → s.nextEvent E t ≠ none
  others : ∀ u, u ≠ t → s'.ops u = s.ops u ∧ s'.iter u = s.iter u
  issued : s'.issued = s.issued
  restarted : s'.restarted = s.restarted
  committer : s'.committer = s.committer
  status : s'.status = match op with
    | .wakeupThread child =>
      if s.ret t = 0 then Function.update s.status child (s.status child).wakeup else s.status
    | _ => s.status

theorem signalNextThread_status (s : Replay) (e : EventRef) : (s.signalNextThread e).restarted = s.restarted ∧
    (s.signalNextThread e).committer = s.committer ∧ (s.signalNextThread e).status = s.status := by
  rw [signalNextThread]
  split <;> exact ⟨rfl, rfl, rfl⟩

theorem peekSyncEvent_frame {l : SyncVar} (h : s.peekSyncEvent E t l = some s') : s.nextEvent E t ≠ none ∧
    s'.ops = s.ops ∧ s'.iter = s.iter ∧ s'.issued = s.issued ∧ s'.restarted = s.restarted ∧ s'.committer = s.committer ∧
    s'.status = s.status := by
  rw [peekSyncEvent] at h
  split at h
  · cases h
  · rename_i ev hev
    split at h
    · cases h
      refine ⟨by simp [hev], ?_⟩
      rw [signalCurrentThread]
      split <;> exact ⟨rfl, rfl, rfl, rfl, rfl, rfl⟩
    · cases h

theorem advanceSyncEvent_frame {l : SyncVar} {next : Option EventRef} (h : s.advanceSyncEvent E l = some (next, s')) :
    s'.ops = s.ops ∧ s'.iter = s.iter ∧ s'.issued = s.issued ∧ s'.restarted = s.restarted ∧ s'.committer = s.committer ∧
    s'.status = s.status := by
  rw [advanceSyncEvent] at h
  split at h
  · cases h
  · split at h <;> cases h <;> exact ⟨rfl, rfl, rfl, rfl, rfl, rfl⟩

theorem went_of_setOps {x : Replay} {op : ReplayOp} {ops : List ReplayOp} (hops : s.ops t = op :: ops)
    (hop : op ≠ .advanceThreadSyncList) (hwake : ∀ child, op ≠ .wakeupThread child)
    (hpeek : ∀ l, op = .peekSyncEvent l → s.nextEvent E t ≠ none) (hx : x.ops = s.ops) (hi : x.iter = s.iter)
    (hs : x.issued = s.issued) (hr : x.restarted = s.restarted) (hc : x.committer = s.committer)
    (hst : x.status = s.status) (next : List EventRef) :
    Went E s (x.setOps t (next.map .signalNextThread ++ ops)) t op ops := by
  refine ⟨hops, ⟨next, Function.update_self ..⟩, ?_, hpeek, fun u hu => ⟨?_, congrFun hi u⟩, hs, hr, hc, ?_⟩
  · rw [if_neg hop]
    exact congrFun hi t
  · rw [setOps_ops, if_neg hu, hx]
  · refine hst.trans ?_
    split
    · exact absurd rfl (hwake _)
    · rfl

theorem went_of_go (hgo : s.go E t = some s') : ∃ op ops, Went E s s' t op ops := by
  rw [Replay.go] at hgo
  split at hgo
  · cases hgo
  · rename_i l ops hops
    obtain ⟨x, hpeek, rfl⟩ := Option.map_eq_some_iff.mp hgo
    obtain ⟨hnext, hxo, hi, hs, hr, hc, hst⟩ := peekSyncEvent_frame hpeek
    exact ⟨_, _, went_of_setOps hops (by simp) (by simp) (fun _ _ => hnext) hxo hi hs hr hc hst []⟩
  · rename_i ops hops
    split at hgo
    · cases hgo
      exact ⟨_, _, went_of_setOps hops (by simp) (by simp) (by simp) rfl rfl rfl rfl rfl rfl []⟩
    · split at hgo <;> cases hgo
      exact ⟨_, _, went_of_setOps
        (x := { s with sema := Function.update s.sema t (s.sema t - 1) }.addLog (.pass (s.firstIterEntry t)))
        hops (by simp) (by simp) (by simp) rfl rfl rfl rfl rfl rfl []⟩
  · rename_i child ops hops
    split at hgo
    · rename_i hret
      cases hgo
      refine ⟨_, _, hops, ⟨[], Function.update_self ..⟩, rfl, (by simp), fun u hu => ⟨Function.update_of_ne hu _ _, rfl⟩, rfl, rfl, rfl, ?_⟩
      exact (if_neg hret).symm
    · rename_i hret
      cases hgo
      refine ⟨_, _, hops, ⟨[], Function.update_self ..⟩, rfl, (by simp), fun u hu => ⟨Function.update_of_ne hu _ _, rfl⟩, rfl, rfl, rfl, ?_⟩
      exact (if_pos (not_not.mp hret)).symm
  · rename_i ops hops
    cases hgo
    refine ⟨_, _, hops, ⟨[], Function.update_self ..⟩, Function.update_self .., (by simp),
      fun u hu => ⟨Function.update_of_ne hu _ _, Function.update_of_ne hu _ _⟩, rfl, rfl, rfl, rfl⟩
  · rename_i l ops hops
    obtain ⟨⟨next, x⟩, hadv, rfl⟩ := Option.map_eq_some_iff.mp hgo
    obtain ⟨hxo, hi, hs, hr, hc, hst⟩ := advanceSyncEvent_frame hadv
    exact ⟨_, _, went_of_setOps (x := x.addLog (.release t l)) hops (by simp) (by simp) (by simp) hxo hi hs hr hc hst next.toList⟩
  · rename_i e ops hops
    cases hgo
    obtain ⟨hi, -, -, hxo, hs, -⟩ := signalNextThread_frame s e
    obtain ⟨hr, hc, hst⟩ := signalNextThread_status s e
    exact ⟨_, _, went_of_setOps hops (by simp) (by simp) (by simp) hxo hi hs hr hc hst []⟩

theorem Went.status_of {op : ReplayOp} {ops : List ReplayOp} (h : Went E s s' t op ops) (u : Nat) :
    s'.status u = s.status u ∨ s'.status u = (s.status u).wakeup := by
  rw [h.status]
  cases op with
  | wakeupThread child =>
    dsimp only
    split
    · by_cases hu : u = child
      · subst hu
        exact .inr (Function.update_self ..)
      · exact .inl (Function.update_of_ne hu _ _)
    · exact .inl rfl
  | peekSyncEvent | waitSemaphore | advanceThreadSyncList | advanceSyncEvent | signalNextThread => exact .inl rfl

/-- The programs of the threads are the same. -/
structure SamePrograms (s s' : Replay) : Prop where
  ops : s'.ops = s.ops
  iter : s'.iter = s.iter
  issued : s'.issued = s.issued
  restarted : s'.restarted = s.restarted
  committer : s'.committer = s.committer
  status : s'.status = s.status

theorem samePrograms_prepare (E : Epoch) (s : Replay) (ls : List SyncVar) :
    SamePrograms s (ls.foldl (Replay.prepareEventListRollback E) s) := by
  induction ls generalizing s with
  | nil => exact ⟨rfl, rfl, rfl, rfl, rfl, rfl⟩
  | cons l ls ih =>
    have hl : SamePrograms s (s.prepareEventListRollback E l) := by
      rw [Replay.prepareEventListRollback]
      split
      · exact ⟨rfl, rfl, rfl, rfl, rfl, rfl⟩
      · rename_i e _
        obtain ⟨hi, -, -, ho, hs, -⟩ := signalNextThread_frame (s.setCurentry l (some 0)) e
        obtain ⟨hr, hc, hst⟩ := signalNextThread_status (s.setCurentry l (some 0)) e
        exact ⟨ho, hi, hs, hr, hc, hst⟩
    have hrest := ih (s.prepareEventListRollback E l)
    exact ⟨hrest.ops.trans hl.ops, hrest.iter.trans hl.iter, hrest.issued.trans hl.issued, hrest.restarted.trans hl.restarted,
      hrest.committer.trans hl.committer, hrest.status.trans hl.status⟩

theorem samePrograms_prepareRollback (E : Epoch) (committer : Nat) :
    SamePrograms ((atStart E committer).wakeupOldWaitingThreads E) (prepareRollback E committer) := by
  have h := samePrograms_prepare E (atStart E committer) (E.active.map SyncVar.mutex ++ [SyncVar.spawning])
  refine ⟨h.ops, h.iter, h.issued, h.restarted, h.committer, ?_⟩
  funext t
  show (if E.alive t ∧ ¬ E.isNewlySpawned t then ((List.foldl _ _ _ : Replay).status t).wakeup else _) = _
  rw [h.status]
  rfl

/-! ### Who goes back -/

/-- Where the threads come from: those that have not gone back have the status of the end of the epoch or have been woken. -/
structure Sent (E : Epoch) (committer : Nat) (s : Replay) : Prop where
  status : ∀ t, s.restarted t = false → s.status t = E.status t ∨ s.status t = (E.status t).wakeup
  back : ∀ t, s.restarted t = true → E.GoesBack committer t
  committer : s.committer = committer

theorem sent_prepareRollback (E : Epoch) (committer : Nat) : Sent E committer (prepareRollback E committer) := by
  have hp := samePrograms_prepareRollback E committer
  refine ⟨fun t _ => ?_, fun t ht => ?_, hp.committer⟩
  · have hstatus : (prepareRollback E committer).status t =
        if E.alive t ∧ ¬ E.isNewlySpawned t then (E.status t).wakeup else E.status t := congrFun hp.status t
    rw [hstatus]
    split
    · exact .inr rfl
    · exact .inl rfl
  · rw [hp.restarted] at ht
    cases ht

/-- The status of a thread that runs is not changed from outside. -/
theorem Sent.goesBack (h : Sent E committer s) (hr : s.restarted t = false) (hc : s.canRestart E t = true) :
    E.GoesBack committer t := by
  simp only [canRestart, Bool.and_eq_true, Bool.or_eq_true, beq_iff_eq] at hc
  rcases hc.2 with ⟨⟨-, hself⟩, -⟩ | ⟨hst, -⟩
  · exact .inl (hself.trans h.committer)
  · refine .inr fun hrun => ?_
    rcases h.status t hr with heq | heq
    · rw [heq, hrun] at hst
      cases hst
    · rw [heq, hrun] at hst
      cases hst

theorem Sent.exec {act : Act} (h : Sent E committer s) (hx : s.exec E act = some s') : Sent E committer s' := by
  cases act with
  | restart t =>
    rw [Replay.exec] at hx
    split at hx
    · rename_i hg
      cases hx
      have hr : s.restarted t = false := by
        rw [canRestart, Bool.and_eq_true, Bool.and_eq_true, Bool.not_eq_true'] at hg
        exact hg.1.2
      refine ⟨fun u hu => ?_, fun u hu => ?_, h.committer⟩
      · have hut : u ≠ t := by
          rintro rfl
          exact absurd ((Function.update_self ..).symm.trans hu) nofun
        have hu : s.restarted u = false := (Function.update_of_ne hut _ _).symm.trans hu
        dsimp only
        rw [Function.update_of_ne hut]
        exact h.status u hu
      · by_cases hut : u = t
        · subst hut
          exact h.goesBack hr hg
        · exact h.back u ((Function.update_of_ne hut _ _).symm.trans hu)
    · cases hx
  | issue t call =>
    rw [Replay.exec] at hx
    split at hx <;> cases hx
    exact ⟨h.status, h.back, h.committer⟩
  | go t =>
    have hx : (if s.restarted t then s.go E t else none) = some s' := hx
    split at hx
    · obtain ⟨op, ops, hw⟩ := went_of_go hx
      refine ⟨fun u hu => ?_, fun u hu => h.back u (hw.restarted ▸ hu), hw.committer.trans h.committer⟩
      rw [hw.restarted] at hu
      rcases hw.status_of u with heq | heq
      · rw [heq]
        exact h.status u hu
      · rw [heq]
        rcases h.status u hu with hold | hold
        · exact .inr (by rw [hold])
        · exact .inr (by rw [hold, ThreadStatus.wakeup_wakeup])
    · cases hx

theorem reachable_sent (h : Reachable (system E committer) s) : Sent E committer s :=
  Reachable.invariant (S := system E committer) (P := Sent E committer)
    (fun _ hs => hs.2 ▸ sent_prepareRollback E committer) (fun _ _ _ h hx => h.exec hx) h

end Replay

end DoubleTake
