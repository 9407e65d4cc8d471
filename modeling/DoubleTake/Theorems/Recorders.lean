import DoubleTake.Theorems.Following

/-! The calls that record the events of an epoch, and that every step of the epoch is recorded: with no mutex of an earlier
    epoch released and no wait timed out, the calls of each thread follow its events. -/

namespace DoubleTake

open Transition

/-- The call records an event. -/
def SyncCall.records : SyncCall → Bool
  | .mutexUnlock _ => false
  | .mutexLock _ | .mutexTrylock _ | .condWait _ | .threadCreate _ => true

namespace Epoch

variable {E E' : Epoch} {c c' : Clock} {t m now : Nat} {l : SyncVar} {ret : Int} {h : Hold}

/-! ### Which call has recorded an event -/

/-- The calls of a thread that record an event, in their order. -/
def recorders (E : Epoch) (t : Nat) : List SyncCall := (E.calls t).filter SyncCall.records

theorem recorders_addCall {call : SyncCall} (hcalls : E'.calls = Function.update E.calls t (E.calls t ++ [call])) :
    E'.recorders t = E.recorders t ++ [call].filter SyncCall.records ∧ ∀ u, u ≠ t → E'.recorders u = E.recorders u := by
  constructor
  · rw [recorders, hcalls, Function.update_self, List.filter_append]
    rfl
  · intro u hu
    rw [recorders, hcalls, Function.update_of_ne hu]
    rfl

theorem unrecorded_congr {u : Nat} (hc : E'.condwait u = E.condwait u) (hr : E'.returned u = E.returned u) :
    E'.unrecorded u = E.unrecorded u := by rw [unrecorded, unrecorded, hc, hr]

theorem Placed.unrecorded_none (hp : E.Placed) (h : E.running t = true) : E.unrecorded t = none := by
  rw [unrecorded, hp.condwait_none h, (running_iff.mp h).2.2]
  rfl

theorem Placed.unrecorded_returned (hp : E.Placed) {r : Returned} (h : E.returned t = some r) : E.unrecorded t = some r.mutex := by
  have hc : E.condwait t = none := by
    cases hc : E.condwait t with
    | none => rfl
    | some m => exact absurd ((hp.asleep t m hc).2.2.symm.trans h) nofun
  rw [unrecorded, hc, h]
  rfl

/-- Every recorder has its event, but for a call that is on its way. -/
structure Indexed (E : Epoch) : Prop where
  length : ∀ t, (E.recorders t).length = (E.syncevents t).length + (E.unrecorded t).toList.length
  waiting : ∀ t m, E.condwait t = some m → (E.recorders t)[(E.syncevents t).length]? = some (.condWait m)
  returned : ∀ t r, E.returned t = some r → ∃ call, (E.recorders t)[(E.syncevents t).length]? = some call ∧
    (∀ u, call ≠ .threadCreate u) ∧ (r.taken = true → r.ret ≠ 0 → call = .condWait r.mutex)
  created : ∀ t (i : Nat) u ev, (E.recorders t)[i]? = some (.threadCreate u) → (E.syncevents t)[i]? = some ev → ev.ret = 0

section
variable (hi : E.Indexed)
include hi

theorem Indexed.length_none (h : E.unrecorded t = none) : (E.recorders t).length = (E.syncevents t).length := by
  rw [hi.length, h]
  rfl

/-- A thread makes a call that records an event later. -/
theorem Indexed.enter {call : SyncCall} (hrec : call.records = true) (hnone : E.unrecorded t = none)
    (hsome : E'.unrecorded t = some m) (hcalls : E'.calls = Function.update E.calls t (E.calls t ++ [call]))
    (hpool : E'.syncevents = E.syncevents) (hcond : ∀ u, u ≠ t → E'.condwait u = E.condwait u)
    (hret : ∀ u, u ≠ t → E'.returned u = E.returned u) (hwait : ∀ m', E'.condwait t = some m' → call = .condWait m')
    (hback : ∀ r, E'.returned t = some r → (∀ u, call ≠ .threadCreate u) ∧ (r.taken = true → r.ret ≠ 0 → call = .condWait r.mutex)) :
    E'.Indexed := by
  obtain ⟨hself, hother⟩ := recorders_addCall hcalls
  rw [List.filter_singleton, hrec, cond_true] at hself
  have hlen := hi.length_none hnone
  refine ⟨fun u => ?_, fun u m' hu => ?_, fun u r hu => ?_, fun u i v ev hv hev => ?_⟩
  · rw [hpool]
    by_cases hut : u = t
    · subst hut
      rw [hself, hsome, List.length_append, hlen]
      rfl
    · rw [hother u hut, unrecorded_congr (hcond u hut) (hret u hut)]
      exact hi.length u
  · rw [hpool]
    by_cases hut : u = t
    · subst hut
      rw [hself, ← hlen, List.getElem?_concat_length, hwait m' hu]
    · rw [hother u hut]
      exact hi.waiting u m' (hcond u hut ▸ hu)
  · rw [hpool]
    by_cases hut : u = t
    · subst hut
      rw [hself, ← hlen, List.getElem?_concat_length]
      exact ⟨call, rfl, hback r hu⟩
    · rw [hother u hut]
      exact hi.returned u r (hret u hut ▸ hu)
  · rw [hpool] at hev
    by_cases hut : u = t
    · subst hut
      have hlt : i < (E.recorders u).length := by
        rw [hlen]
        exact (List.getElem?_eq_some_iff.mp hev).1
      rw [hself, List.getElem?_append_left hlt] at hv
      exact hi.created u i v ev hv hev
    · rw [hother u hut] at hv
      exact hi.created u i v ev hv hev

/-- Which calls record, and how far they have come, is the same. -/
theorem Indexed.congr (hrec : ∀ u, E'.recorders u = E.recorders u) (hpool : E'.syncevents = E.syncevents)
    (hcond : E'.condwait = E.condwait) (hret : E'.returned = E.returned) : E'.Indexed := by
  refine ⟨fun u => ?_, fun u m hu => ?_, fun u r hu => ?_, fun u i v ev hv hev => ?_⟩
  · rw [hrec, hpool, unrecorded_congr (congrFun hcond u) (congrFun hret u)]
    exact hi.length u
  · rw [hrec, hpool]
    exact hi.waiting u m (hcond ▸ hu)
  · rw [hrec, hpool]
    exact hi.returned u r (hret ▸ hu)
  · rw [hrec] at hv
    rw [hpool] at hev
    exact hi.created u i v ev hv hev

/-- A wait ends, and its event is not recorded yet. -/
theorem Indexed.wakeup {r : Returned} (hc : E.condwait t = some m) (hnone : E.returned t = none) (hm : r.mutex = m)
    (hcond : E'.condwait = Function.update E.condwait t none) (hret : E'.returned = Function.update E.returned t (some r))
    (hcalls : E'.calls = E.calls) (hpool : E'.syncevents = E.syncevents) : E'.Indexed := by
  have hrec : ∀ u, E'.recorders u = E.recorders u := by
    intro u
    rw [recorders, hcalls]
    rfl
  refine ⟨fun u => ?_, fun u m' hu => ?_, fun u x hu => ?_, fun u i v ev hv hev => ?_⟩
  · rw [hrec, hpool, hi.length]
    by_cases hut : u = t
    · subst hut
      rw [unrecorded, unrecorded, hc, hnone, hcond, hret, Function.update_self, Function.update_self]
      rfl
    · rw [unrecorded, unrecorded, hcond, hret, Function.update_of_ne hut, Function.update_of_ne hut]
  · have hut : u ≠ t := by
      rintro rfl
      rw [hcond, Function.update_self] at hu
      cases hu
    rw [hcond, Function.update_of_ne hut] at hu
    rw [hrec, hpool]
    exact hi.waiting u m' hu
  · rw [hrec, hpool]
    by_cases hut : u = t
    · subst hut
      rw [hret, Function.update_self] at hu
      cases hu
      exact ⟨_, hi.waiting u m hc, nofun, fun _ _ => by rw [hm]⟩
    · rw [hret, Function.update_of_ne hut] at hu
      exact hi.returned u x hu
  · rw [hrec] at hv
    rw [hpool] at hev
    exact hi.created u i v ev hv hev

/-- The event of a call is recorded. -/
theorem Indexed.record {r : Returned} (hp : E.Placed) (hr : E.returned t = some r) (hrecord : Records t l ret E E')
    (hret : E'.returned = Function.update E.returned t none) (hcond : E'.condwait = E.condwait) (hcalls : E'.calls = E.calls) :
    E'.Indexed := by
  have hrec : ∀ u, E'.recorders u = E.recorders u := by
    intro u
    rw [recorders, hcalls]
    rfl
  have hpool : ∀ u, u ≠ t → E'.syncevents u = E.syncevents u := by
    intro u hu
    rw [hrecord.syncevents, Function.update_of_ne hu]
  have hawake : E.condwait t = none := by
    cases hc : E.condwait t with
    | none => rfl
    | some m => exact absurd ((hp.asleep t m hc).2.2.symm.trans hr) nofun
  refine ⟨fun u => ?_, fun u m' hu => ?_, fun u x hu => ?_, fun u i v ev hv hev => ?_⟩
  · rw [hrec, hi.length]
    by_cases hut : u = t
    · subst hut
      rw [hrecord.length, hp.unrecorded_returned hr, unrecorded, hcond, hawake, hret, Function.update_self]
      rfl
    · rw [hpool u hut, unrecorded, unrecorded, hcond, hret, Function.update_of_ne hut]
  · rw [hcond] at hu
    have hut : u ≠ t := by
      rintro rfl
      exact absurd (hawake.symm.trans hu) nofun
    rw [hrec, hpool u hut]
    exact hi.waiting u m' hu
  · have hut : u ≠ t := by
      rintro rfl
      rw [hret, Function.update_self] at hu
      cases hu
    rw [hret, Function.update_of_ne hut] at hu
    rw [hrec, hpool u hut]
    exact hi.returned u x hu
  · rw [hrec] at hv
    rcases hrecord.pool.mp hev with hold | ⟨rfl, rfl, -⟩
    · exact hi.created u i v ev hv hold
    · obtain ⟨call, hcall, hne, -⟩ := hi.returned u r hr
      exact absurd (Option.some.inj (hcall.symm.trans hv)) (hne v)

/-- A thread is created, and the event is recorded with it. -/
theorem Indexed.create {child : Nat} (hnone : E.unrecorded t = none) (hrecord : Records t l 0 E E')
    (hcalls : E'.calls = Function.update E.calls t (E.calls t ++ [.threadCreate child])) (hcond : E'.condwait = E.condwait)
    (hret : E'.returned = E.returned) : E'.Indexed := by
  obtain ⟨hself, hother⟩ := recorders_addCall hcalls
  rw [List.filter_singleton, SyncCall.records, cond_true] at hself
  have hpool : ∀ u, u ≠ t → E'.syncevents u = E.syncevents u := by
    intro u hu
    rw [hrecord.syncevents, Function.update_of_ne hu]
  have hun : ∀ u, E'.unrecorded u = E.unrecorded u := fun u => unrecorded_congr (congrFun hcond u) (congrFun hret u)
  have hlen := hi.length_none hnone
  obtain ⟨hc, hr⟩ : E.condwait t = none ∧ E.returned t = none := by
    rw [unrecorded, Option.or_eq_none_iff, Option.map_eq_none_iff] at hnone
    exact hnone
  refine ⟨fun u => ?_, fun u m' hu => ?_, fun u x hu => ?_, fun u i v ev hv hev => ?_⟩
  · rw [hun]
    by_cases hut : u = t
    · subst hut
      rw [hself, hrecord.length, hnone, List.length_append, hlen]
      rfl
    · rw [hother u hut, hpool u hut]
      exact hi.length u
  · rw [hcond] at hu
    have hut : u ≠ t := by
      rintro rfl
      exact absurd (hc.symm.trans hu) nofun
    rw [hother u hut, hpool u hut]
    exact hi.waiting u m' hu
  · rw [hret] at hu
    have hut : u ≠ t := by
      rintro rfl
      exact absurd (hr.symm.trans hu) nofun
    rw [hother u hut, hpool u hut]
    exact hi.returned u x hu
  · by_cases hut : u = t
    · subst hut
      rw [hself] at hv
      rcases hrecord.pool.mp hev with hold | ⟨-, -, rfl⟩
      · have hlt : i < (E.recorders u).length := by
          rw [hlen]
          exact (List.getElem?_eq_some_iff.mp hold).1
        rw [List.getElem?_append_left hlt] at hv
        exact hi.created u i v ev hv hold
      · rfl
    · rw [hother u hut] at hv
      rw [hpool u hut] at hev
      exact hi.created u i v ev hv hev

theorem Indexed.did (hp : E.Placed) (hd : E.Did E') : E'.Indexed := by
  cases hd with
  | enter t m call r hrun hm hcall hret hcalls hcond hreturned _ hk =>
    have hsome : E'.unrecorded t = some m := by
      rw [unrecorded, hcond, hp.condwait_none hrun, hreturned, Function.update_self, ← hm]
      rfl
    refine hi.enter ?_ (hp.unrecorded_none hrun) hsome hcalls hk.syncevents (fun u _ => congrFun hcond u)
      (fun u hu => by rw [hreturned, Function.update_of_ne hu]) (fun m' hm' => ?_) fun x hx => ⟨fun u => ?_, fun htr hne => ?_⟩
    · rcases hcall with rfl | rfl <;> rfl
    · rw [hcond, hp.condwait_none hrun] at hm'
      cases hm'
    · rcases hcall with rfl | rfl <;> nofun
    · rw [hreturned, Function.update_self] at hx
      cases hx
      exact absurd (hret htr) hne
  | release t m call hrun _ hcall hcalls hreturned _ hk =>
    rcases hcall with ⟨rfl, hcond⟩ | ⟨rfl, hcond⟩
    · obtain ⟨hself, hother⟩ := recorders_addCall hcalls
      refine hi.congr (fun u => ?_) hk.syncevents hcond hreturned
      by_cases hut : u = t
      · subst hut
        exact hself.trans (List.append_nil _)
      · exact hother u hut
    · have hsome : E'.unrecorded t = some m := by
        rw [unrecorded, hcond, Function.update_self]
        rfl
      refine hi.enter rfl (hp.unrecorded_none hrun) hsome hcalls hk.syncevents (fun u hu => by rw [hcond, Function.update_of_ne hu])
        (fun u _ => congrFun hreturned u) (fun m' hm' => ?_) fun x hx => ?_
      · rw [hcond, Function.update_self] at hm'
        rw [Option.some.inj hm']
      · rw [hreturned, (running_iff.mp hrun).2.2] at hx
        cases hx
  | wakeup t m r hc hm _ hcond hret hcalls _ hk => exact hi.wakeup hc (hp.asleep t m hc).2.2 hm hcond hret hcalls hk.syncevents
  | record t r hr hrecord hret _ _ hcond hcalls => exact hi.record hp hr hrecord hret hcond hcalls
  | create t child hrun _ hrecord hcalls _ _ _ hcond hret => exact hi.create (hp.unrecorded_none hrun) hrecord hcalls hcond hret
  | finish t _ hcond hret hcalls _ hk =>
    refine hi.congr (fun u => ?_) hk.syncevents hcond hret
    rw [recorders, hcalls]
    rfl

end

theorem reachable_indexed (h : Reachable system E) : E.Indexed := by
  refine reachable_induct (P := Indexed) (fun E hE => ?_) (fun _ _ hreach hd hi => hi.did (reachable_placed hreach) hd) h
  have hrec : ∀ t, E.recorders t = (E.condwait t).toList.map .condWait := by
    intro t
    rw [recorders, hE.calls]
    cases E.condwait t <;> rfl
  refine ⟨fun t => ?_, fun t m hm => ?_, by simp [hE.returned], by simp [hE.syncevents]⟩
  · rw [hrec, hE.syncevents, unrecorded, hE.returned, Option.map_none, Option.or_none, List.length_map]
    exact (Nat.zero_add _).symm
  · rw [hrec, hE.syncevents, hm]
    rfl

/-! ### Every step is recorded -/

/-- No wait has ended with a result other than 0. -/
def NoTimeout (E : Epoch) : Prop := ∀ t (i : Nat) m ev, (E.recorders t)[i]? = some (.condWait m) →
  (E.syncevents t)[i]? = some ev → ev.ret = 0

theorem holder_other {o : Option Nat} {u : Nat} (ho : E'.holder = Function.update E.holder m o) (hu : u ≠ t)
    (hold : E.holder m = none ∨ E.holder m = some t) (hnew : o = none ∨ o = some t) (m' : Nat) :
    E'.holder m' = some u ↔ E.holder m' = some u := by
  rw [ho]
  by_cases hm : m' = m
  · subst hm
    rw [Function.update_self]
    rcases hold with hold | hold <;> rcases hnew with rfl | rfl <;> simp [hold, Ne.symm hu]
  · rw [Function.update_of_ne hm]

/-- Nothing is recorded. -/
theorem Recorded.same (hR : E.Recorded c now) (hk : E.Kept E') (hn : E.NewWhenFree E') (ho : Others t E E')
    (hself : E.stale t = false → E'.Followed c t) : E'.Recorded c now := by
  refine ⟨hR.timed.same hk.syncevents hk.list, ?_, ?_, ?_, fun u hst => ?_⟩
  · rw [hk.syncevents, hk.list]
    exact hR.creator
  · rw [hk.isNewlySpawned]
    exact hR.spawned
  · rw [hk.alive, hk.syncevents]
    exact hR.alive
  · rw [hk.stale] at hst
    by_cases hut : u = t
    · subst hut
      exact hself hst
    · exact (hR.follows u hst).other ho hut (later_same hk.syncevents hk.list) hn

theorem Recorded.creator_ne (hR : E.Recorded c now) (hp : E.Paired) (u : Nat) :
    c.creator u ≠ some ⟨t, (E.syncevents t).length⟩ := by
  intro hu
  obtain ⟨⟨l', hl'⟩, -⟩ := hR.creator u _ hu
  exact hp.fresh t l' hl'

theorem Recorded.later_tick (hR : E.Recorded c now) (hp : E.Paired) (hr : Records t l ret E E') :
    Later E c E' (c.tick ⟨t, (E.syncevents t).length⟩ now c.creator) :=
  hR.timed.later hp hr fun _ _ _ _ hu => hu

/-- A thread that does not come closer to its next event. -/
theorem Recorded.idle (t : Nat) (hR : E.Recorded c now) (hk : E.Kept E') (hn : E.NewWhenFree E') (hcalls : E'.calls = E.calls)
    (hun : E'.unrecorded = E.unrecorded) (hh : E'.holder = E.holder) : E'.Recorded c now := by
  refine hR.same (t := t) hk hn
    ⟨fun u _ => congrFun hcalls u, fun u _ => congrFun hun u, fun u _ => congrFun hk.syncevents u, fun u m _ => by rw [hh],
      hk.startOwner, fun u hu => hk.stale ▸ hu⟩ fun hst => ?_
  obtain ⟨done, h, hdone, hf, hkeeps⟩ := hR.follows t hst
  have hlater : Later E c E' c := later_same hk.syncevents hk.list
  refine ⟨done, h, ?_, ?_, hkeeps.later hlater hn (fun m => by rw [hh]) hk.startOwner⟩
  · rw [hcalls, rest, hun]
    exact hdone
  · rw [hk.syncevents]
    exact hf.later hlater

/-- A running thread makes a call that takes a mutex. -/
theorem Recorded.enter {call : SyncCall} (hR : E.Recorded c now) (hk : E.Kept E') (hn : E.NewWhenFree E')
    (hnone : E.unrecorded t = none) (hsome : E'.unrecorded t = some m) (hun : ∀ u, u ≠ t → E'.unrecorded u = E.unrecorded u)
    (hcall : call.replay = [.peekSyncEvent (.mutex m), .waitSemaphore, .advanceThreadSyncList])
    (hcalls : E'.calls = Function.update E.calls t (E.calls t ++ [call])) (hh : E'.holder = E.holder) : E'.Recorded c now := by
  refine hR.same (t := t) hk hn ⟨fun u hu => by rw [hcalls, Function.update_of_ne hu], hun, fun u _ => congrFun hk.syncevents u,
    fun u m _ => by rw [hh], hk.startOwner, fun u hu => hk.stale ▸ hu⟩ fun hst => ?_
  obtain ⟨h, hf, hkeeps⟩ := (hR.follows t hst).outside hnone
  have hlater : Later E c E' c := later_same hk.syncevents hk.list
  refine ⟨(E.calls t).flatMap SyncCall.replay, h, ?_, ?_, hkeeps.later hlater hn (fun m => by rw [hh]) hk.startOwner⟩
  · rw [hcalls, Function.update_self, List.flatMap_append, List.flatMap_singleton, hcall, rest, hsome]
  · rw [hk.syncevents]
    exact hf.later hlater

/-- A running thread releases a mutex that it has taken in this epoch. -/
theorem Recorded.release {call : SyncCall} (hR : E.Recorded c now) (hk : E.Kept E') (hn : E.NewWhenFree E')
    (hnone : E.unrecorded t = none) (hm : E.holder m = some t) (hstart : E.startOwner m ≠ some t)
    (hun : ∀ u, u ≠ t → E'.unrecorded u = E.unrecorded u)
    (hcall : call.replay = .advanceSyncEvent (.mutex m) :: E'.rest t)
    (hcalls : E'.calls = Function.update E.calls t (E.calls t ++ [call])) (hh : E'.holder = Function.update E.holder m none) :
    E'.Recorded c now := by
  refine hR.same (t := t) hk hn ⟨fun u hu => by rw [hcalls, Function.update_of_ne hu], hun, fun u _ => congrFun hk.syncevents u,
    fun u m' hu => holder_other hh hu (.inr hm) (.inl rfl) m', hk.startOwner, fun u hu => hk.stale ▸ hu⟩ fun hst => ?_
  obtain ⟨h, hf, hkeeps⟩ := (hR.follows t hst).outside hnone
  have hlater : Later E c E' c := later_same hk.syncevents hk.list
  refine ⟨(E.calls t).flatMap SyncCall.replay ++ [.advanceSyncEvent (.mutex m)], _, ?_, ?_,
    hkeeps.drop hlater hn hh hk.startOwner⟩
  · rw [hcalls, Function.update_self, List.flatMap_append, List.flatMap_singleton, hcall, List.append_assoc]
    rfl
  · rw [hk.syncevents]
    exact (hf.later hlater).append (.release (hkeeps.owned m hm hstart) .nil)

/-- What a thread has taken is recorded, or that it has not taken it. -/
theorem Recorded.record {r : Returned} (hR : E.Recorded c now) (hp : E.Paired) (hi : E.Indexed) (hpl : E.Placed)
    (hw : E'.NoTimeout) (hn : E.NewWhenFree E') (hr : E.returned t = some r) (hrecord : Records t (.mutex r.mutex) r.ret E E')
    (hret : E'.returned = Function.update E.returned t none)
    (htaken : r.taken = true → E.holder r.mutex = none ∧ E'.holder = Function.update E.holder r.mutex (some t))
    (hfailed : r.taken = false → r.ret ≠ 0 ∧ E'.holder = E.holder) (hcond : E'.condwait = E.condwait)
    (hcalls : E'.calls = E.calls) (halive : E'.alive = E.alive) (hnewly : E'.isNewlySpawned = E.isNewlySpawned)
    (hso : E'.startOwner = E.startOwner) (hstale : E'.stale = E.stale) : ∃ c' now', E'.Recorded c' now' := by
  have hlater := hR.later_tick hp hrecord
  have hholder : ∀ u m, u ≠ t → (E'.holder m = some u ↔ E.holder m = some u) := by
    intro u m hu
    cases htr : r.taken with
    | true =>
      obtain ⟨hfree, hh⟩ := htaken htr
      exact holder_other hh hu (.inl hfree) (.inr rfl) m
    | false => rw [(hfailed htr).2]
  have ho : Others t E E' := by
    refine ⟨fun u _ => congrFun hcalls u, fun u hu => unrecorded_congr (congrFun hcond u) ?_, fun u hu => ?_, hholder, hso,
      fun u hu => hstale ▸ hu⟩
    · rw [hret, Function.update_of_ne hu]
    · rw [hrecord.syncevents, Function.update_of_ne hu]
  refine ⟨_, _, hR.step hrecord hp hn ho (fun u e hu => .inl hu) ?_ (fun u hu => ?_) fun hst => ?_⟩
  · rw [hnewly]
    exact hR.spawned
  · rw [halive] at hu
    refine ⟨hu, ?_⟩
    rintro rfl
    rw [(hpl.returned u r hr).1] at hu
    cases hu
  · obtain ⟨done, h, hdone, hf, hkeeps⟩ := hR.follows t (hstale ▸ hst)
    have hrest : E.rest t = [.peekSyncEvent (.mutex r.mutex), .waitSemaphore, .advanceThreadSyncList] := by
      rw [rest, hpl.unrecorded_returned hr]
    have hrest' : E'.rest t = [] := by
      refine rest_none ?_
      have hc : E.condwait t = none := by
        cases hc : E.condwait t with
        | none => rfl
        | some m =>
          rw [(hpl.asleep t m hc).2.2] at hr
          cases hr
      rw [unrecorded, hcond, hc, hret, Function.update_self]
      rfl
    have hdone' : (E'.calls t).flatMap SyncCall.replay =
        (done ++ [.peekSyncEvent (.mutex r.mutex), .waitSemaphore, .advanceThreadSyncList]) ++ E'.rest t := by
      rw [hcalls, hdone, hrest, hrest', List.append_nil]
    cases htr : r.taken with
    | true =>
      obtain ⟨hfree, hh⟩ := htaken htr
      have hzero : r.ret = 0 := by
        by_contra hne
        obtain ⟨call, hcall, -, htimed⟩ := hi.returned t r hr
        have hrec : E'.recorders t = E.recorders t := by
          rw [recorders, hcalls]
          rfl
        rw [← hrec, htimed htr hne] at hcall
        exact hne (hw t _ r.mutex _ hcall hrecord.new.1)
      exact ⟨_, _, hdone', follows_take hrecord hf hkeeps hlater hn hzero (hR.creator_ne hp),
        hkeeps.take hlater hn hh hso hfree (hrecord.lastTaken rfl hzero)⟩
    | false =>
      obtain ⟨hne, hh⟩ := hfailed htr
      exact ⟨_, h, hdone', follows_tryFailed hrecord hf hlater hne, hkeeps.later hlater hn (fun m => by rw [hh]) hso⟩

/-- A running thread creates another one. -/
theorem Recorded.create {child : Nat} (hR : E.Recorded c now) (hp : E.Paired) (hpl : E.Placed) (hn : E.NewWhenFree E')
    (hrun : E.running t = true) (hdead : E.alive child = false) (hr : Records t .spawning 0 E E')
    (hcalls : E'.calls = Function.update E.calls t (E.calls t ++ [.threadCreate child]))
    (halive : E'.alive = Function.update E.alive child true)
    (hnewly : E'.isNewlySpawned = Function.update E.isNewlySpawned child true)
    (hstale : ∀ u, E'.stale u = false → E.stale u = false) (hcond : E'.condwait = E.condwait) (hret : E'.returned = E.returned)
    (hh : E'.holder = E.holder) (hso : E'.startOwner = E.startOwner) : ∃ c' now', E'.Recorded c' now' := by
  have hthere := (running_iff.mp hrun).1
  have hne : child ≠ t := by
    rintro rfl
    rw [hthere] at hdead
    cases hdead
  have hun : ∀ u, E'.unrecorded u = E.unrecorded u := fun u => unrecorded_congr (congrFun hcond u) (congrFun hret u)
  have ho : Others t E E' := by
    refine ⟨fun u hu => by rw [hcalls, Function.update_of_ne hu], fun u _ => hun u, fun u hu => ?_, fun u m' _ => by rw [hh], hso,
      hstale⟩
    rw [hr.syncevents, Function.update_of_ne hu]
  have hcreator : ∀ u e, Function.update c.creator child (some ⟨t, (E.syncevents t).length⟩) u = some e →
      c.creator u = some e ∨ e = ⟨t, (E.syncevents t).length⟩ ∧ u ≠ t ∧ E.syncevents u = [] := by
    intro u e hu
    by_cases hut : u = child
    · subst hut
      rw [Function.update_self] at hu
      exact .inr ⟨(Option.some.inj hu).symm, hne, hR.alive u hdead⟩
    · rw [Function.update_of_ne hut] at hu
      exact .inl hu
  refine ⟨_, _, hR.step hr hp hn ho hcreator (fun u hu => ?_) (fun u hu => ?_) fun hst => ?_⟩
  · rw [hnewly] at hu
    by_cases hut : u = child
    · subst hut
      exact ⟨_, Function.update_self ..⟩
    · rw [Function.update_of_ne hut] at hu ⊢
      exact hR.spawned u hu
  · rw [halive] at hu
    by_cases hut : u = child
    · subst hut
      rw [Function.update_self] at hu
      cases hu
    · rw [Function.update_of_ne hut] at hu
      refine ⟨hu, ?_⟩
      rintro rfl
      rw [hthere] at hu
      cases hu
  · obtain ⟨h, hf, hkeeps⟩ := (hR.follows t (hstale t hst)).outside (hpl.unrecorded_none hrun)
    have hlater : Later E c E' (c.tick ⟨t, (E.syncevents t).length⟩ now
        (Function.update c.creator child (some ⟨t, (E.syncevents t).length⟩))) := by
      refine hR.timed.later hp hr fun l' e u he hu => ?_
      rcases hcreator u e hu with hold | ⟨rfl, -⟩
      · exact hold
      · exact absurd he (hp.fresh t l')
    refine ⟨_, h, ?_, follows_create hr child hf hkeeps hlater hn rfl rfl fun u hu => ?_,
      hkeeps.later hlater hn (fun m' => by rw [hh]) hso⟩
    · rw [rest_none ((hun t).trans (hpl.unrecorded_none hrun)), List.append_nil, hcalls, Function.update_self, List.flatMap_append,
        List.flatMap_singleton]
    · by_contra hut
      have hu : c.creator u = some ⟨t, (E.syncevents t).length⟩ := (Function.update_of_ne hut _ _).symm.trans hu
      exact hR.creator_ne hp u hu

theorem Recorded.did (hR : E.Recorded c now) (hp : E.Paired) (hi : E.Indexed) (hpl : E.Placed) (hk : E'.KeepsHeld)
    (hw : E'.NoTimeout) (hd : E.Did E') : ∃ c' now', E'.Recorded c' now' := by
  have hn := hd.newWhenFree
  cases hd with
  | enter t m call r hrun hm hcall _ hcalls hcond hret hh hkept =>
    refine ⟨c, now, hR.enter (m := m) hkept hn (hpl.unrecorded_none hrun) ?_ (fun u hu => ?_) ?_ hcalls hh⟩
    · rw [unrecorded, hcond, hpl.condwait_none hrun, hret, Function.update_self, ← hm]
      rfl
    · exact unrecorded_congr (congrFun hcond u) (by rw [hret, Function.update_of_ne hu])
    · rcases hcall with rfl | rfl <;> rfl
  | release t m call hrun hm hcall hcalls hret hh hkept =>
    have hnone := hpl.unrecorded_none hrun
    have hstart : ∀ m', call.releases = some m' → E.startOwner m' ≠ some t := by
      intro m' hm'
      rw [← hkept.startOwner]
      exact hk t call (mem_calls hcalls) m' hm'
    rcases hcall with ⟨rfl, hcond⟩ | ⟨rfl, hcond⟩
    · have hun : ∀ u, E'.unrecorded u = E.unrecorded u := fun u => unrecorded_congr (congrFun hcond u) (congrFun hret u)
      refine ⟨c, now, hR.release hkept hn hnone hm (hstart m rfl) (fun u _ => hun u) ?_ hcalls hh⟩
      rw [rest_none ((hun t).trans hnone)]
      rfl
    · refine ⟨c, now, hR.release hkept hn hnone hm (hstart m rfl) (fun u hu => ?_) ?_ hcalls hh⟩
      · exact unrecorded_congr (by rw [hcond, Function.update_of_ne hu]) (congrFun hret u)
      · rw [rest, unrecorded, hcond, Function.update_self]
        rfl
  | wakeup t m r hc hm _ hcond hret hcalls hh hkept =>
    refine ⟨c, now, hR.idle t hkept hn hcalls (funext fun u => ?_) hh⟩
    by_cases hut : u = t
    · subst hut
      rw [unrecorded, unrecorded, hc, hcond, hret, Function.update_self, Function.update_self, ← hm]
      rfl
    · exact unrecorded_congr (by rw [hcond, Function.update_of_ne hut]) (by rw [hret, Function.update_of_ne hut])
  | record t r hr hrecord hret htaken hfailed hcond hcalls halive hnewly hso hstale =>
    exact hR.record hp hi hpl hw hn hr hrecord hret htaken hfailed hcond hcalls halive hnewly hso hstale
  | create t child hrun hdead hr hcalls halive hnewly hstale hcond hret hh hso =>
    exact hR.create hp hpl hn hrun hdead hr hcalls halive hnewly hstale hcond hret hh hso
  | finish t _ hcond hret hcalls hh hkept =>
    refine ⟨c, now, hR.idle t hkept hn hcalls (funext fun u => ?_) hh⟩
    exact unrecorded_congr (congrFun hcond u) (congrFun hret u)

theorem KeepsHeld.of_did (hk : E'.KeepsHeld) (hd : E.Did E') : E.KeepsHeld := by
  have ho := hd.owners
  intro t c hc m hm
  rw [← ho.startOwner]
  exact hk t c ((ho.calls t).subset hc) m hm

theorem NoTimeout.of_did (hw : E'.NoTimeout) (hd : E.Did E') : E.NoTimeout := by
  intro t i m ev hcall hev
  have hpre : E.recorders t <+: E'.recorders t := (hd.owners.calls t).filter _
  have hcall' : (E'.recorders t)[i]? = some (.condWait m) := by
    obtain ⟨rest, hrest⟩ := hpre
    rw [← hrest, List.getElem?_append_left (List.getElem?_eq_some_iff.mp hcall).1]
    exact hcall
  refine hw t i m ev hcall' ?_
  rcases hd.records with ⟨hs, -⟩ | ⟨t', l, ret, hr, -⟩
  · rw [hs]
    exact hev
  · exact hr.pool.mpr (.inl hev)

theorem Recorded.began (hE : E.Began) : E.Recorded ⟨fun _ => 0, fun _ => none⟩ 0 := by
  refine ⟨⟨?_, ?_, ?_⟩, nofun, ?_, fun t _ => hE.syncevents t, fun t hst => ?_⟩
  · simp [hE.list]
  · simp [hE.list]
  · simp [hE.syncevents]
  · simp [hE.isNewlySpawned]
  · -- a thread with a context of this epoch is in no call
    have hc : E.condwait t = none := by
      cases hc : E.condwait t with
      | none => rfl
      | some m =>
        obtain ⟨hs, ha, -⟩ := hE.condwait t m hc
        rw [hE.stale, ha, hs] at hst
        cases hst
    refine ⟨[], fun _ => none, ?_, ?_, nofun, fun m hm hs => ?_, rfl⟩
    · rw [hE.calls, hc, rest_none]
      · rfl
      · rw [unrecorded, hc, hE.returned]
        rfl
    · rw [hE.syncevents]
      exact .nil
    · rw [hE.startOwner] at hs
      exact absurd (holder_eq_some.mp hm).1 hs

theorem reachable_recorded (h : Reachable system E) (hk : E.KeepsHeld) (hw : E.NoTimeout) :
    ∃ c now, E.Recorded c now := by
  refine reachable_induct (P := fun E => E.KeepsHeld → E.NoTimeout → ∃ c now, E.Recorded c now)
    (fun E hE _ _ => ⟨_, _, .began hE⟩) (fun E E' hreach hd ih hk hw => ?_) h hk hw
  obtain ⟨c, now, hR⟩ := ih (hk.of_did hd) (hw.of_did hd)
  exact hR.did (reachable_paired hreach) (reachable_indexed hreach) (reachable_placed hreach) hk hw hd

end Epoch

end DoubleTake
