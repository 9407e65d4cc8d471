import DoubleTake.Theorems.Progress

/-! Events with another result than 0 in the replay: their turn never comes when the mutex that they did not get stays held,
    and then they do not disturb the other events. -/

namespace DoubleTake

open Transition

theorem SyncCall.replay_count (call : SyncCall) :
    call.replay.count .advanceThreadSyncList = ([call].filter SyncCall.records).length := by cases call <;> rfl

/-- The thread that releases the mutex. -/
def Passage.releaser (m : Nat) : Passage → Option Nat
  | .release t l => if l = .mutex m then some t else none
  | .pass _ => none

theorem Turns.releaser_turns (m : Nat) (es : List EventRef) :
    (es.flatMap (turn (.mutex m))).filterMap (Passage.releaser m) = es.map EventRef.thread := by
  induction es with
  | nil => rfl
  | cons e es ih =>
    have hself : Passage.releaser m (.release e.thread (.mutex m)) = some e.thread := if_pos rfl
    rw [List.flatMap_cons, List.filterMap_append, ih, turn, List.filterMap_cons_none rfl, List.filterMap_cons_some hself]
    rfl

namespace Epoch

variable {E E' : Epoch} {t m p q : Nat} {e : EventRef}

/-- The event of a wait that has timed out: its thread has the mutex again. -/
def timedOut (E : Epoch) (e : EventRef) : Bool :=
  (E.syncevents e.thread)[e.index]?.any (·.ret != 0) &&
    match (E.recorders e.thread)[e.index]? with
    | some (.condWait _) => true
    | _ => false

/-- The thread has the mutex after the event. -/
def takes (E : Epoch) (e : EventRef) : Bool := (E.syncevents e.thread)[e.index]?.any (·.ret == 0) || E.timedOut e

/-- The threads that had the mutex before the event at this position, in this order. -/
def holders (E : Epoch) (m p : Nat) : List Nat :=
  (E.startOwner m).toList ++ (((E.list (.mutex m)).take p).filter E.takes).map EventRef.thread

/-- A call that has not got its mutex is recorded after the event of a thread that has taken the mutex and keeps it, and
    that does not go back further than to the begin of the epoch. -/
def Contained (E : Epoch) (committer : Nat) : Prop := ∀ m (p : Nat) e, (E.list (.mutex m))[p]? = some e → ¬ E.Good e →
  ∃ q t, q < p ∧ E.LastTaken t m q ∧ E.holder m = some t ∧ (E.stale t = true → ¬ E.GoesBack committer t)

theorem takes_of_good (h : E.Good e) : E.takes e = true := by
  obtain ⟨ev, hev, hret⟩ := h
  rw [takes, hev, Option.any_some, hret]
  rfl

/-- A thread is always created. -/
theorem reachable_spawning (h : Reachable system E) : ∀ e ∈ E.list .spawning, E.Good e := by
  refine reachable_induct (P := fun E => ∀ e ∈ E.list .spawning, E.Good e) (fun E hE => ?_) (fun E E' hreach hd ih e he => ?_) h
  · rw [hE.list]
    exact nofun
  · rcases hd.records with ⟨hs, hl⟩ | ⟨t, l, ret, hr, -, hret⟩
    · rw [hl] at he
      rw [Good, hs]
      exact ih e he
    · obtain ⟨p, he⟩ := List.getElem?_of_mem he
      rcases hr.position.mp he with he | ⟨hl, -, rfl⟩
      · have hmem := List.mem_of_getElem? he
        exact (hr.good_old (reachable_paired hreach) hmem).mpr (ih e hmem)
      · exact hr.good_new (hret hl.symm)

theorem LastTaken.unique {t' q' : Nat} (h : E.LastTaken t m q) (h' : E.LastTaken t' m q') : q = q' ∧ t = t' := by
  obtain ⟨e, he, ht, hg, hlast⟩ := h
  obtain ⟨e', he', ht', hg', hlast'⟩ := h'
  rcases Nat.lt_trichotomy q q' with hlt | rfl | hgt
  · exact absurd hg' (hlast q' e' hlt he')
  · rw [he] at he'
    cases he'
    exact ⟨rfl, ht.symm.trans ht'⟩
  · exact absurd hg (hlast' q e hgt he)

end Epoch

/-- What a thread holds at the end it holds from the begin, or it takes it on the way. -/
theorem Follows.taken {E : Epoch} {c : Clock} {t i i' p : Nat} {h h' : Hold} {ops : List ReplayOp} {l : SyncVar}
    (hf : Follows E c t h i ops h' i') (hh : h' l = some p) : h l = some p ∨ ∃ j, i ≤ j ∧ (E.list l)[p]? = some ⟨t, j⟩ := by
  induction hf with
  | nil => exact .inl hh
  | peek _ _ _ ih | fail _ _ _ ih | wakeup _ ih | signal _ ih => exact ih hh
  | @wait h _ i _ _ l' p' hpos _ _ _ _ ih =>
    rcases ih hh with htaken | hlater
    · by_cases hl : l = l'
      · subst hl
        rw [Function.update_self] at htaken
        cases htaken
        exact .inr ⟨i, Nat.le_refl i, hpos⟩
      · rw [Function.update_of_ne hl] at htaken
        exact .inl htaken
    · exact .inr hlater
  | advance _ ih =>
    rcases ih hh with htaken | ⟨j, hj, hpos⟩
    · exact .inl htaken
    · exact .inr ⟨j, Nat.le_of_succ_le hj, hpos⟩
  | @release h _ _ _ _ l' _ _ ih =>
    rcases ih hh with htaken | hlater
    · by_cases hl : l = l'
      · subst hl
        rw [Function.update_self] at htaken
        cases htaken
      · rw [Function.update_of_ne hl] at htaken
        exact .inl htaken
    · exact .inr hlater

namespace Replay

variable {E : Epoch} {c : Clock} {s s' : Replay} {a : Turns} {t m p now committer : Nat} {e : EventRef}

/-! ### The calls and the events of a thread -/

/-- The calls that a thread has issued have gone over its events, but for one that it is still to go over. -/
def Counted (s : Replay) (t : Nat) : Prop :=
  (((s.issued t).map Prod.fst).filter SyncCall.records).length = s.iter t + (s.ops t).count .advanceThreadSyncList

theorem count_signals (next : List EventRef) (ops : List ReplayOp) :
    (next.map ReplayOp.signalNextThread ++ ops).count .advanceThreadSyncList = ops.count .advanceThreadSyncList := by
  rw [List.count_append, List.count_eq_zero_of_not_mem, Nat.zero_add]
  simp

theorem Counted.exec {act : Act} (h : ∀ t, s.Counted t) (hx : s.exec E act = some s') : ∀ t, s'.Counted t := by
  intro u
  cases act with
  | restart t =>
    rw [Replay.exec] at hx
    split at hx <;> cases hx
    exact h u
  | issue t call =>
    rw [Replay.exec] at hx
    split at hx
    · rename_i hg
      cases hx
      have hu := h u
      by_cases hut : u = t
      · subst hut
        rw [Counted, hg.2.1, List.count_nil, Nat.add_zero] at hu
        rw [Counted, setOps_ops, if_pos rfl, SyncCall.replay_count]
        show ((Function.update s.issued u (s.issued u ++ [(call, _)]) u).map Prod.fst |>.filter SyncCall.records).length = _
        rw [Function.update_self, List.map_append, List.filter_append, List.length_append, hu]
        rfl
      · rw [Counted, setOps_ops, if_neg hut]
        show ((Function.update s.issued t (s.issued t ++ [(call, _)]) u).map Prod.fst |>.filter SyncCall.records).length = _
        rw [Function.update_of_ne hut]
        exact hu
    · cases hx
  | go t =>
    have hx : (if s.restarted t then s.go E t else none) = some s' := hx
    split at hx
    · obtain ⟨op, ops, hw⟩ := went_of_go hx
      have hu := h u
      rw [Counted, hw.issued]
      by_cases hut : u = t
      · subst hut
        obtain ⟨next, hnext⟩ := hw.ops
        rw [Counted, hw.head, List.count_cons] at hu
        rw [hu, hnext, count_signals, hw.iter]
        by_cases hop : op = .advanceThreadSyncList
        · subst hop
          simp only [if_true, beq_self_eq_true]
          omega
        · rw [if_neg hop, beq_eq_false_iff_ne.mpr hop]
          rfl
      · obtain ⟨ho, hi⟩ := hw.others u hut
        rw [ho, hi]
        exact hu
    · cases hx

theorem counted_prepareRollback (E : Epoch) (committer t : Nat) : (prepareRollback E committer).Counted t := by
  have hp := samePrograms_prepareRollback E committer
  rw [Counted, hp.issued, hp.iter, hp.ops]
  rfl

/-- The call that a thread issues is the one that has recorded its next event. -/
theorem Counted.recorder {call : SyncCall} (h : s.Counted t) (hops : s.ops t = []) (hst : E.stale t = false)
    (hsame : sameCalls E s (.issue t call)) (hrec : call.records = true) : (E.recorders t)[s.iter t]? = some call := by
  rw [Counted, hops, List.count_nil, Nat.add_zero] at h
  obtain ⟨rest, hrest⟩ : (s.issued t).map Prod.fst ++ [call] <+: E.calls t := hsame.resolve_left (by simp [hst])
  rw [Epoch.recorders, ← hrest, List.filter_append, List.filter_append, List.filter_singleton, hrec, cond_true,
    List.append_assoc, List.getElem?_append_right (Nat.le_of_eq h), h, Nat.sub_self]
  rfl

/-! ### The turn does not come to an event that has failed -/

/-- The thread that keeps the mutex until the end of the epoch does not release it in the replay either. -/
theorem Course.keeps (h : Course E c s a) (hE : Reachable Epoch.system E) (hk : E.KeepsHeld) {ops : List ReplayOp} {q u : Nat}
    (hops : s.ops t = .advanceSyncEvent (.mutex m) :: ops) (hq : a.HeldAt E t (.mutex m) q) (hlast : E.LastTaken u m q)
    (hst : E.stale u = false) : E.holder m ≠ some u := by
  intro howner
  have hlast' := hlast
  obtain ⟨e, he, -, ht, hpassed⟩ := hq
  obtain ⟨e', he', rfl, hgood, -⟩ := hlast
  obtain rfl : e = e' := Option.some.inj (he.symm.trans he')
  subst ht
  obtain ⟨rem, hold, post, hend, -, -, -, hf, hkeeps⟩ := (h.tracked e.thread hst).next hops nofun
  have hstart : E.startOwner m ≠ some e.thread := by
    intro hstart
    obtain ⟨-, hbad⟩ := Epoch.reachable_stillHeld hE m _ hstart fun call hcall hm => hk _ call hcall m hm hstart
    exact hbad e (List.mem_of_getElem? he) hgood
  obtain ⟨q', hq'⟩ := Option.ne_none_iff_exists'.mp (hkeeps.owned m howner hstart)
  obtain ⟨-, hlast''⟩ := hkeeps.mutex m q' hq'
  obtain ⟨rfl, -⟩ := hlast'.unique hlast''
  -- it would have to take the mutex once more with the same event
  cases hf with
  | release _ hf =>
    rcases hf.taken hq' with hnone | ⟨j, hj, hpos⟩
    · rw [Function.update_self] at hnone
      cases hnone
    · have hindex : e.index = j := congrArg EventRef.index (Option.some.inj (he.symm.trans hpos))
      obtain ⟨-, hlt | ⟨-, hpast⟩⟩ := (h.sim.passed _).mp hpassed
      · omega
      · rw [hops] at hpast
        cases hpast

/-- No event with another result than 0 gets in the way. -/
structure Harmless (E : Epoch) (committer : Nat) : Prop where
  keepsHeld : E.KeepsHeld
  noTimeout : E.NoTimeout
  contained : E.Contained committer
  savedFree : E.SavedFree committer
  /-- Who goes back further than to the begin of the epoch has no such event. -/
  successful : ∀ t, E.stale t = true → E.GoesBack committer t → ∀ ev ∈ E.syncevents t, ev.ret = 0

theorem Course.admits {act : Act} (h : Course E c s a) (hE : Reachable Epoch.system E) (hh : Harmless E committer)
    (hs : Sent E committer s) (hcount : ∀ t, s.Counted t) (hsame : sameCalls E s act) (hx : s.exec E act = some s') :
    s.Admits E act := by
  cases act with
  | restart t => trivial
  | issue t call =>
    refine ⟨fun m hm => hs.saved_eq_false hE hh.keepsHeld hh.savedFree hsame hx hm, fun ev hev hcall => ?_⟩
    rw [Replay.exec] at hx
    split at hx
    · rename_i hg
      cases hst : E.stale t with
      | true => exact hh.successful t hst (hs.back t hg.1) ev (List.mem_of_getElem? hev)
      | false =>
        rcases hcall with ⟨m, rfl⟩ | ⟨u, rfl⟩
        · exact hh.noTimeout t _ m ev ((hcount t).recorder hg.2.1 hst hsame rfl) hev
        · exact (Epoch.reachable_indexed hE).created t _ u ev ((hcount t).recorder hg.2.1 hst hsame rfl) hev
    · cases hx
  | go t =>
    have hr : s.restarted t = true := by
      by_contra hr
      rw [Replay.exec, if_neg hr] at hx
      cases hx
    intro l ops k e hops hcur he
    obtain ⟨-, ⟨q, e', he', hq, ht, hpassed⟩, -⟩ := hops ▸ h.sim.program t
    obtain rfl : q = k := Option.some.inj ((h.sim.curentry_eq he' hq).symm.trans hcur)
    cases l with
    | spawning => exact Epoch.reachable_spawning hE e (List.mem_of_getElem? he)
    | mutex m =>
      by_contra hbad
      obtain ⟨q', u, hlt, hlast, hholder, hback⟩ := hh.contained m _ e he hbad
      -- the event that is released is the last one that took the mutex
      obtain rfl : q' = q := by
        rcases Nat.lt_or_eq_of_le (Nat.le_of_lt_succ hlt) with hlt' | heq
        · obtain ⟨-, -, -, -, hnone⟩ := hlast
          exact absurd ((h.sim.passed e').mp hpassed).1 (hnone q e' hlt' he')
        · exact heq
      have hst : E.stale u = false := by
        refine Bool.eq_false_iff.mpr fun hst => hback hst ?_
        obtain ⟨e'', he'', rfl, -⟩ := hlast
        obtain rfl : e' = e'' := Option.some.inj (he'.symm.trans he'')
        exact ht ▸ hs.back t hr
      exact h.keeps hE hh.keepsHeld hops ⟨e', he', hq, ht, hpassed⟩ hlast hst hholder

/-- What is known of the replay of such an epoch. -/
structure Steady (E : Epoch) (c : Clock) (s : Replay) (a : Turns) : Prop where
  course : Course E c s a
  counted : ∀ t, s.Counted t
  granted : ∀ l, E.list l ≠ [] → 0 < a.granted l

theorem Harmless.steady (hh : Harmless E committer) (hE : Reachable Epoch.system E) (hR : E.Recorded c now)
    (h : Reachable ((system E committer).restrict (sameCalls E)) s) : ∃ a, Steady E c s a := by
  have hl := Epoch.reachable_listed hE
  induction h with
  | init hs =>
    obtain ⟨-, rfl⟩ := hs
    have hgood : ∀ l e, (E.list l).head? = some e → E.Good e := by
      intro l e he
      cases l with
      | spawning => exact Epoch.reachable_spawning hE e (List.mem_of_head? he)
      | mutex m =>
        by_contra hbad
        rw [List.head?_eq_getElem?] at he
        obtain ⟨q, -, hlt, -⟩ := hh.contained m 0 e he hbad
        exact Nat.not_lt_zero q hlt
    obtain ⟨a, ha, hgr⟩ := sim_prepareRollback hl hgood
    exact ⟨a, course_prepareRollback hR ha, counted_prepareRollback E committer, fun l hne => hgr l hne (mem_prepared hE hne)⟩
  | @step s s' act hreach hx ih =>
    obtain ⟨a, hs⟩ := ih
    obtain ⟨hsame, hx⟩ := hx
    have hok := hs.course.admits hE hh (reachable_sent hreach.of_restrict) hs.counted hsame hx
    have hcount := Counted.exec hs.counted hx
    cases act with
    | restart t => exact ⟨a, hs.course.restart hx, hcount, hs.granted⟩
    | issue t call => exact ⟨a, hs.course.issue hok hsame hx, hcount, hs.granted⟩
    | go t =>
      have hx : (if s.restarted t then s.go E t else none) = some s' := hx
      split at hx
      · rename_i hr
        obtain ⟨a', op, ops, hc', -, hm⟩ := hs.course.go hl hok hx hr
        exact ⟨a', hc', hcount, fun l hne => Nat.lt_of_lt_of_le (hs.granted l hne) (hm.granted_le l)⟩
      · cases hx

/-- The current entry of the list has come to this position. -/
def reached (s : Replay) (l : SyncVar) (p : Nat) : Prop := ∀ k, s.curentry l = some k → p ≤ k

/-- The threads that have released the mutex, in this order. -/
def releases (s : Replay) (m : Nat) : List Nat := s.log.filterMap (Passage.releaser m)

/-- Events with another result than 0 do not disturb the replay. -/
structure Undisturbed (E : Epoch) (s : Replay) : Prop where
  /-- Such an event takes the turn that it is given. -/
  consumed : ∀ m (p : Nat) e, (E.list (.mutex m))[p]? = some e → ¬ E.Good e → s.reached (.mutex m) p → s.Beyond e →
    .pass e ∈ s.log
  /-- What is left in a semaphore is the turn of the next event of the thread. -/
  sema : ∀ t, 0 < s.sema t → s.sema t = 1 ∧
    ∃ l k, s.curentry l = some k ∧ (E.list l)[k]? = some (s.firstIterEntry t) ∧ .pass (s.firstIterEntry t) ∉ s.log
  /-- The event after it gets its turn, once those who had the mutex have released it. -/
  next : ∀ m (p : Nat) e, (E.list (.mutex m))[p]? = some e → ¬ E.Good e → p + 1 < (E.list (.mutex m)).length → s.Beyond e →
    E.holders m (p + 1) <+: s.releases m → s.reached (.mutex m) (p + 1)
  /-- A wait that has timed out returns after those who had the mutex before have released it. -/
  previous : ∀ m (p : Nat) e, (E.list (.mutex m))[p]? = some e → E.timedOut e = true → s.Beyond e →
    E.holders m p <+: s.releases m

theorem Sim.releases_eq (h : Sim E s a) (m : Nat) :
    s.releases m = ((E.list (.mutex m)).take (a.granted (.mutex m) - 1)).map EventRef.thread := by
  have hon : s.releases m = (s.log.filter (·.on E (.mutex m))).filterMap (Passage.releaser m) := by
    rw [releases, List.filterMap_filter]
    congr 1
    funext x
    cases x with
    | pass e => simp [Passage.releaser]
    | release t l => simp [Passage.on, Passage.releaser]
  rw [hon, h.log, Turns.shown]
  split
  · rename_i hg
    rw [hg]
    rfl
  · rename_i g hg
    have hpass : ∀ es : List EventRef, (es.map Passage.pass).filterMap (Passage.releaser m) = [] := by
      simp [Passage.releaser]
    rw [hg, List.filterMap_append, Turns.releaser_turns, hpass, List.append_nil]
    rfl

section
variable (h : Steady E c s a)
include h

theorem Steady.granted_le (he : (E.list (.mutex m))[p]? = some e) (hbad : ¬ E.Good e) : a.granted (.mutex m) ≤ p := by
  by_contra hlt
  refine hbad (h.course.sim.good e fun hidle => ?_)
  rcases Nat.lt_or_eq_of_le (Nat.succ_le_of_lt (Nat.lt_of_not_le hlt)) with hlt' | heq
  · rw [h.course.sim.inOrder.before _ p e he hlt'] at hidle
    cases hidle
  · exact h.course.sim.inOrder.current _ p e he heq hidle

theorem Steady.not_reached (he : (E.list (.mutex m))[p]? = some e) (hbad : ¬ E.Good e) : ¬ s.reached (.mutex m) p := by
  intro hreached
  have hle := h.granted_le he hbad
  have hlen := (List.getElem?_eq_some_iff.mp he).1
  have hpos := h.granted (.mutex m) (List.ne_nil_of_length_pos (by omega))
  have hcur := h.course.sim.curentry (.mutex m) hpos
  rw [if_pos (by omega)] at hcur
  have := hreached _ hcur
  omega

/-- Who holds the mutex now is among those who had it before the event. -/
theorem Steady.not_released (he : (E.list (.mutex m))[p]? = some e) (hbad : ¬ E.Good e) :
    ¬ E.holders m (p + 1) <+: s.releases m := by
  intro hpre
  have hle := h.granted_le he hbad
  have hlen := (List.getElem?_eq_some_iff.mp he).1
  have hpos := h.granted (.mutex m) (List.ne_nil_of_length_pos (by omega))
  have htakes : ((E.list (.mutex m)).take (a.granted (.mutex m))).filter E.takes = (E.list (.mutex m)).take (a.granted (.mutex m)) := by
    refine List.filter_eq_self.mpr fun e' he' => Epoch.takes_of_good ?_
    obtain ⟨i, hi⟩ := List.getElem?_of_mem he'
    rw [List.getElem?_take] at hi
    split at hi
    · rename_i hlt
      by_contra hbad'
      have := h.granted_le hi hbad'
      omega
    · cases hi
  have hcount : a.granted (.mutex m) ≤ (((E.list (.mutex m)).take (p + 1)).filter E.takes).length := by
    calc a.granted (.mutex m) = (((E.list (.mutex m)).take (a.granted (.mutex m))).filter E.takes).length := by
          rw [htakes, List.length_take]
          omega
      _ ≤ _ := ((List.take_prefix_take_left (by omega)).filter E.takes).length_le
  have hshort := hpre.length_le
  rw [h.course.sim.releases_eq, Epoch.holders, List.length_append, List.length_map, List.length_map, List.length_take] at hshort
  omega

end

/-- Thread 1 tries a mutex that thread 0 has locked and keeps. -/
def triesKept : Epoch :=
  ([.mutexLock 0 5, .record 0, .mutexLock 1 6, .record 1, .mutexTrylock 1 5, .record 1, .mutexUnlock 1 6, .finish 1].foldlM Epoch.exec
    Epoch.start).getD Epoch.start

theorem triesKept_reachable : Reachable Epoch.system triesKept :=
  Epoch.reachable_run [.mutexLock 0 5, .record 0, .mutexLock 1 6, .record 1, .mutexTrylock 1 5, .record 1,
    .mutexUnlock 1 6, .finish 1] (.init Epoch.start_began) rfl

theorem triesKept_ended : triesKept.Ended := by
  refine ⟨fun t => ?_, fun t u c ht _ => ?_⟩
  · rcases t with _ | _ | t <;> rfl
  · rcases t with _ | _ | t <;> cases ht

theorem triesKept_list (m : Nat) :
    triesKept.list (.mutex m) = if m = 5 then [⟨0, 0⟩, ⟨1, 1⟩] else if m = 6 then [⟨1, 0⟩] else [] := by
  have hlist : triesKept.list = Function.update (Function.update (Function.update (fun _ => []) (.mutex 5) [⟨0, 0⟩])
      (.mutex 6) [⟨1, 0⟩]) (.mutex 5) [⟨0, 0⟩, ⟨1, 1⟩] := rfl
  rw [hlist]
  simp only [Function.update_apply, SyncVar.mutex.injEq]
  split <;> rfl

/-- Nobody waits for a condition. -/
theorem triesKept_noTimeout : triesKept.NoTimeout := by
  intro t i m ev hcall _
  have hmem : SyncCall.condWait m ∈ triesKept.calls t := (List.mem_filter.mp (List.mem_of_getElem? hcall)).1
  rcases t with _ | _ | t
  · exact absurd (show SyncCall.condWait m ∈ [.mutexLock 5] from hmem) (by simp)
  · exact absurd (show SyncCall.condWait m ∈ [.mutexLock 6, .mutexTrylock 5, .mutexUnlock 6] from hmem) (by simp)
  · cases show SyncCall.condWait m ∈ [] from hmem

theorem triesKept_contained : triesKept.Contained 0 := by
  intro m p e he hbad
  have hfirst : triesKept.Good ⟨0, 0⟩ := ⟨⟨0, .mutex 5, 0⟩, rfl, rfl⟩
  have hother : triesKept.Good ⟨1, 0⟩ := ⟨⟨1, .mutex 6, 0⟩, rfl, rfl⟩
  have hnot : ¬ triesKept.Good ⟨1, 1⟩ := by
    rintro ⟨ev, hev, hret⟩
    cases show some (⟨1, .mutex 5, Epoch.EBUSY⟩ : SyncEvent) = some ev from hev
    cases hret
  rw [triesKept_list] at he
  split at he
  · rename_i hm
    subst hm
    rcases p with _ | _ | p
    · cases he
      exact absurd hfirst hbad
    · refine ⟨0, 0, Nat.zero_lt_one, ⟨⟨0, 0⟩, rfl, rfl, hfirst, fun p' e' hlt he' => ?_⟩, rfl, fun hst => (nomatch hst)⟩
      rcases p' with _ | _ | p'
      · cases hlt
      · cases he'
        exact hnot
      · cases he'
    · cases he
  · split at he
    · rcases p with _ | p
      · cases he
        exact absurd hother hbad
      · cases he
    · cases he

theorem triesKept_harmless : Harmless triesKept 0 :=
  ⟨fun _ _ _ _ _ => nofun, triesKept_noTimeout, triesKept_contained, fun _ hst => (nomatch hst), fun _ hst => (nomatch hst)⟩

/-- Thread 1 tries a mutex that thread 0 has locked and unlocks afterwards, and ends the epoch. -/
def triesInVain : Epoch :=
  ([.mutexLock 0 5, .record 0, .mutexTrylock 1 5, .record 1, .mutexUnlock 0 5, .finish 0].foldlM Epoch.exec
    Epoch.start).getD Epoch.start

theorem triesInVain_reachable : Reachable Epoch.system triesInVain :=
  Epoch.reachable_run [.mutexLock 0 5, .record 0, .mutexTrylock 1 5, .record 1, .mutexUnlock 0 5, .finish 0]
    (.init Epoch.start_began) rfl

theorem triesInVain_ended : triesInVain.Ended := by
  refine ⟨fun t => ?_, fun t u c ht _ => ?_⟩
  · rcases t with _ | _ | t <;> rfl
  · rcases t with _ | _ | t <;> cases ht

end Replay

end DoubleTake
