import DoubleTake.Theorems.Replay

/-! The releases of the replay: which event is the current one of the list when a thread gives a mutex back. -/

namespace DoubleTake

open Transition

namespace Epoch

variable {E E' : Epoch} {act : Act} {m u : Nat}

theorem calls_prefix {t : Nat} {c : SyncCall} (h : E'.calls = Function.update E.calls t (E.calls t ++ [c])) (u : Nat) :
    E.calls u <+: E'.calls u := by
  rw [h]
  by_cases hu : u = t
  · subst hu
    rw [Function.update_self]
    exact List.prefix_append _ _
  · exact ⟨[], by rw [List.append_nil, Function.update_of_ne hu]⟩

theorem mem_calls {t : Nat} {c : SyncCall} (h : E'.calls = Function.update E.calls t (E.calls t ++ [c])) : c ∈ E'.calls t := by
  rw [h, Function.update_self]
  exact List.mem_append_right _ (List.mem_singleton_self c)

/-- What a step does to the calls and to the mutexes: one that is held stays so, or its holder has made a call that
    releases it. -/
structure Owners (E E' : Epoch) : Prop where
  startOwner : E'.startOwner = E.startOwner
  calls : ∀ u, E.calls u <+: E'.calls u
  holder : ∀ m u, E.holder m = some u → E'.holder m = some u ∨ ∃ c ∈ E'.calls u, c.releases = some m

theorem Did.owners (h : E.Did E') : E.Owners E' := by
  cases h with
  | enter t m call r _ _ _ _ hcalls _ _ hh hk =>
    exact ⟨hk.startOwner, calls_prefix hcalls, fun _ _ hu => .inl (hh ▸ hu)⟩
  | release t m call _ hm hcall hcalls _ hh hk =>
    refine ⟨hk.startOwner, calls_prefix hcalls, fun m' u hu => ?_⟩
    by_cases hmm : m' = m
    · subst hmm
      obtain rfl : t = u := Option.some.inj (hm.symm.trans hu)
      refine .inr ⟨call, mem_calls hcalls, ?_⟩
      rcases hcall with ⟨rfl, -⟩ | ⟨rfl, -⟩ <;> rfl
    · rw [hh, Function.update_of_ne hmm]
      exact .inl hu
  | wakeup _ _ _ _ _ _ _ _ hcalls hh hk | finish _ _ _ _ hcalls hh hk =>
    exact ⟨hk.startOwner, fun u => hcalls ▸ List.prefix_refl _, fun _ _ hu => .inl (hh ▸ hu)⟩
  | record t r _ _ _ htaken hfailed _ hcalls _ _ hso _ =>
    refine ⟨hso, fun u => hcalls ▸ List.prefix_refl _, fun m u hu => .inl ?_⟩
    cases htr : r.taken with
    | true =>
      obtain ⟨hnone, hh⟩ := htaken htr
      rw [hh, Function.update_of_ne]
      · exact hu
      · rintro rfl
        exact absurd (hnone.symm.trans hu) nofun
    | false => exact (hfailed htr).2 ▸ hu
  | create t child _ _ _ hcalls _ _ _ _ _ hh hso => exact ⟨hso, calls_prefix hcalls, fun _ _ hu => .inl (hh ▸ hu)⟩

/-- A mutex that is held from the begin of the epoch on and not released by its holder is taken by nobody. -/
def StillHeld (E : Epoch) : Prop := ∀ m u, E.startOwner m = some u → (∀ c ∈ E.calls u, c.releases ≠ some m) →
  E.holder m = some u ∧ ∀ e ∈ E.list (.mutex m), ¬ E.Good e

theorem reachable_stillHeld (h : Reachable system E) : E.StillHeld := by
  refine reachable_induct (fun E hE => ?_) (fun E E' hreach hd ih => ?_) h
  · intro m u hu _
    rw [hE.startOwner] at hu
    exact ⟨holder_eq_some.mpr ⟨hu, taking_none (hE.returned u)⟩, by simp [hE.list]⟩
  · intro m u hu hc
    have ho := hd.owners
    rw [ho.startOwner] at hu
    obtain ⟨howner, hbad⟩ := ih m u hu fun c hmem => hc c ((ho.calls u).subset hmem)
    refine ⟨(ho.holder m u howner).resolve_right fun ⟨c, hmem, hm⟩ => hc c hmem hm, fun e he => ?_⟩
    rcases hd.records with ⟨hs, hl⟩ | ⟨t, l, ret, hr, hfree, -⟩
    · rw [hl] at he
      rw [Good, hs]
      exact hbad e he
    · obtain ⟨p, he⟩ := List.getElem?_of_mem he
      rintro ⟨ev, hev, hret⟩
      rcases hr.pool.mp hev with hold | ⟨ht, hi, rfl⟩
      · rcases hr.position.mp he with he | ⟨-, -, rfl⟩
        · exact hbad e (List.mem_of_getElem? he) ⟨ev, hold, hret⟩
        · simp at hold
      · -- the new event takes the mutex, which is held
        obtain ⟨ev', hev', hl⟩ := ((reachable_paired hreach).records hr).ref _ _ _ he
        rw [hev] at hev'
        cases hev'
        rw [hfree m hl hret] at howner
        cases howner

/-- Every call that takes a mutex has taken it. -/
def Successful (E : Epoch) : Prop := ∀ t, ∀ ev ∈ E.syncevents t, ev.ret = 0

/-- Nobody releases in the epoch a mutex that he has held since before it. -/
def KeepsHeld (E : Epoch) : Prop := ∀ t, ∀ c ∈ E.calls t, ∀ m, c.releases = some m → E.startOwner m ≠ some t

theorem Successful.good (hok : E.Successful) (hE : E.Listed) {l : SyncVar} {e : EventRef} (he : e ∈ E.list l) :
    E.Good e := by
  obtain ⟨ev, hev, -⟩ := hE.ref l e he
  exact ⟨ev, hev, hok e.thread ev (List.mem_of_getElem? hev)⟩

theorem KeepsHeld.list_nil (hk : E.KeepsHeld) (h : Reachable system E) (hok : E.Successful) (hu : E.startOwner m = some u) :
    E.list (.mutex m) = [] := by
  refine List.eq_nil_iff_forall_not_mem.mpr fun e he => ?_
  obtain ⟨-, hbad⟩ := reachable_stillHeld h m u hu fun c hc hm => hk u c hc m hm hu
  exact hbad e he (hok.good (reachable_listed h) he)

end Epoch

namespace Replay

variable {E : Epoch} {s s' : Replay} {a : Turns} {t m committer : Nat} {l : SyncVar} {ops : List ReplayOp}

/-- What a thread releases in the replay it has taken after its context was saved. -/
theorem Sent.saved_eq_false {c : SyncCall} (hs : Sent E committer s) (hE : Reachable Epoch.system E) (hk : E.KeepsHeld)
    (hf : E.SavedFree committer) (hsame : sameCalls E s (.issue t c)) (hx : s.exec E (.issue t c) = some s')
    (hm : c.releases = some m) : E.saved t m = false := by
  rw [Replay.exec] at hx
  split at hx
  · rename_i hg
    have hback := hs.back t hg.1
    rcases hsame with hst | hsame
    · exact hf t hst hback m
    · exact hf.saved_eq_false (Epoch.reachable_placed hE) hback (hk t c (hsame.subset (by simp)) m hm)
  · cases hx

/-- A thread that releases a variable has the current event of its list, and this event was the last to pass. -/
theorem Sim.release (h : Sim E s a) (hops : s.ops t = .advanceSyncEvent l :: ops) : ∃ k e, s.curentry l = some k ∧
    (E.list l)[k]? = some e ∧ e.thread = t ∧ (s.log.filter (·.on E l)).getLast? = some (.pass e) := by
  obtain ⟨-, ⟨p, e, he, hp, ht, hpassed⟩, -⟩ := hops ▸ h.program t
  refine ⟨p, e, h.curentry_eq he hp, he, ht, ?_⟩
  rw [h.log, Turns.shown, ← hp]
  simp [he, hpassed]

theorem sim_of_keepsHeld (hE : Reachable Epoch.system E) (hok : E.Successful) (hk : E.KeepsHeld) (hf : E.SavedFree committer)
    (h : Reachable ((system E committer).restrict (sameCalls E)) s) : ∃ a, Sim E s a := by
  have hl := Epoch.reachable_listed hE
  induction h with
  | init hs =>
    obtain ⟨-, rfl⟩ := hs
    obtain ⟨a, ha, -⟩ := sim_prepareRollback hl fun l e he => hok.good hl (List.mem_of_head? he)
    exact ⟨a, ha⟩
  | step act hreach hx ih =>
    obtain ⟨a, ha⟩ := ih
    obtain ⟨hsame, hx⟩ := hx
    refine ha.exec hl ?_ hx
    cases act with
    | restart t => trivial
    | issue t c =>
      refine ⟨fun m hm => (reachable_sent hreach.of_restrict).saved_eq_false hE hk hf hsame hx hm, fun ev hev _ => ?_⟩
      exact hok t ev (List.mem_of_getElem? hev)
    | go t => exact fun l ops k e _ _ he => hok.good hl (List.mem_of_getElem? he)

/-- The event has been granted to its thread. -/
def granted (s : Replay) (e : EventRef) : Prop :=
  e ∈ s.pendingSyncevents e.thread ∨ e = s.firstIterEntry e.thread ∧ 0 < s.sema e.thread ∨ .pass e ∈ s.log

/-- When a thread is about to release a mutex, the current entry of its list is the event with which the thread has acquired
    it, and its successor is granted. The first event on a mutex that somebody held at the begin of the epoch is granted
    after the release of that thread. -/
structure AdvancesRight (E : Epoch) (s : Replay) : Prop where
  current : ∀ t m ops, s.ops t = .advanceSyncEvent (.mutex m) :: ops → ∃ k e, s.curentry (.mutex m) = some k ∧
    (E.list (.mutex m))[k]? = some e ∧ e.thread = t ∧ (s.log.filter (·.on E (.mutex m))).getLast? = some (.pass e) ∧
    (s.advanceSyncEvent E (.mutex m)).map Prod.fst = some (E.list (.mutex m))[k + 1]?
  first : ∀ m u e, E.startOwner m = some u → (E.list (.mutex m)).head? = some e → s.granted e →
    .release u (.mutex m) ∈ s.log

/-- Thread 0 holds mutex 9 when the epoch begins. -/
def heldBefore : Epoch := (([.mutexLock 0 9, .record 0].foldlM Epoch.exec Epoch.start).getD Epoch.start).epochBegin

theorem heldBefore_reachable : Reachable Epoch.system heldBefore := by
  have hlocked : Reachable Epoch.system (([.mutexLock 0 9, .record 0].foldlM Epoch.exec Epoch.start).getD Epoch.start) :=
    Epoch.reachable_run [.mutexLock 0 9, .record 0] (.init Epoch.start_began) rfl
  refine .step (.epochBegin 0) hlocked ⟨rfl, fun t => ?_, rfl⟩
  rcases t with _ | t <;> rfl

/-- With mutex 9 held all the time, thread 0 locks and unlocks mutex 5, and thread 1 does the same after it. -/
def locksBeside : Epoch :=
  ([.mutexLock 0 5, .record 0, .mutexUnlock 0 5, .mutexLock 1 5, .record 1, .mutexUnlock 1 5].foldlM Epoch.exec
    heldBefore).getD heldBefore

theorem locksBeside_reachable : Reachable Epoch.system locksBeside :=
  Epoch.reachable_run [.mutexLock 0 5, .record 0, .mutexUnlock 0 5, .mutexLock 1 5, .record 1, .mutexUnlock 1 5]
    heldBefore_reachable rfl

theorem locksBeside_ended : locksBeside.Ended := by
  refine ⟨fun t => ?_, fun t u c ht _ => ?_⟩
  · rcases t with _ | _ | t <;> rfl
  · rcases t with _ | _ | t <;> cases ht

theorem locksBeside_successful : locksBeside.Successful := by
  intro t ev hev
  rcases t with _ | _ | t
  · cases List.mem_singleton.mp (show ev ∈ [⟨0, .mutex 5, 0⟩] from hev)
    rfl
  · cases List.mem_singleton.mp (show ev ∈ [⟨1, .mutex 5, 0⟩] from hev)
    rfl
  · cases show ev ∈ [] from hev

theorem locksBeside_keepsHeld : locksBeside.KeepsHeld := by
  intro t c hc m hm
  have hcalls : c ∈ [SyncCall.mutexLock 5, .mutexUnlock 5] := by
    rcases t with _ | _ | t
    · exact hc
    · exact hc
    · cases show c ∈ [] from hc
  rcases List.mem_pair.mp hcalls with rfl | rfl
  · cases hm
  · cases hm
    have hfree : locksBeside.startOwner 5 = none := rfl
    rw [hfree]
    nofun

theorem locksBeside_savedFree : locksBeside.SavedFree 0 := by
  intro t hst
  have hst : (decide (t < 3) && false) = true := hst
  rw [Bool.and_false] at hst
  cases hst

/-- Thread 0 unlocks mutex 9. -/
def unlocksHeld : Epoch := ([.mutexUnlock 0 9].foldlM Epoch.exec heldBefore).getD heldBefore

theorem unlocksHeld_reachable : Reachable Epoch.system unlocksHeld :=
  Epoch.reachable_run [.mutexUnlock 0 9] heldBefore_reachable rfl

theorem unlocksHeld_ended : unlocksHeld.Ended := by
  refine ⟨fun t => ?_, fun t u c ht _ => ?_⟩
  · rcases t with _ | t <;> rfl
  · rcases t with _ | t <;> cases ht

end Replay

end DoubleTake
