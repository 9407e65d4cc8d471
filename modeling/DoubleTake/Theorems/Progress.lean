import DoubleTake.Theorems.Tracking

/-! The replay does not get stuck: of the events that have not passed, the thread of the first recorded one, or the thread
    that it waits for, can go on. -/

namespace DoubleTake

open Transition

theorem Epoch.Timed.list_lt {E : Epoch} {c : Clock} {now : Nat} (h : E.Timed c now) {l : SyncVar} {q p : Nat}
    {e e' : EventRef} (hqp : q < p) (he : (E.list l)[q]? = some e) (he' : (E.list l)[p]? = some e') : c.time e < c.time e' := by
  induction p generalizing e' with
  | zero => omega
  | succ p ih =>
    have hlen : p + 1 < (E.list l).length := (List.getElem?_eq_some_iff.mp he').1
    have hp : (E.list l)[p]? = some (E.list l)[p] := List.getElem?_eq_getElem (by omega)
    have hlast := h.list l p _ e' hp he'
    rcases Nat.lt_or_eq_of_le (Nat.le_of_lt_succ hqp) with hlt | rfl
    · exact Nat.lt_trans (ih hlt hp) hlast
    · rw [he] at hp
      rw [Option.some.inj hp]
      exact hlast

theorem Epoch.Good.ne_nil {E : Epoch} {e : EventRef} (h : E.Good e) : E.syncevents e.thread ≠ [] := by
  obtain ⟨ev, hev, -⟩ := h
  exact List.ne_nil_of_mem (List.mem_of_getElem? hev)

namespace Replay

variable {E : Epoch} {c : Clock} {s s' : Replay} {a : Turns} {t u now committer : Nat}

/-- Each thread that has events goes back to the begin of this epoch: it is the old thread whose end of the epoch has failed,
    or it does not run, and the mutex of its `cond_wait` is free. -/
structure Restartable (E : Epoch) (committer : Nat) : Prop where
  savedFree : E.SavedFree committer
  fresh : ∀ t, E.syncevents t ≠ [] → E.stale t = false
  running : ∀ t, E.syncevents t ≠ [] → E.status t = .running → t = committer ∧ E.isNewlySpawned t = false
  asleep : ∀ t m, E.condwait t = some m → E.syncevents t ≠ [] → E.owner m = none

/-- Some thread can take a step, other than a call of a thread that has gone back to an earlier epoch. -/
def CanStep (E : Epoch) (s : Replay) : Prop :=
  ∃ act s', (∀ t call, act = .issue t call → E.stale t = false) ∧ sameCalls E s act ∧ s.exec E act = some s'

/-- What is known of the lists and of the threads that have to be woken. -/
structure Awaited (E : Epoch) (c : Clock) (s : Replay) (a : Turns) : Prop where
  granted : ∀ l, E.list l ≠ [] → 0 < a.granted l
  old : ∀ u, s.restarted u = false → E.alive u = true → E.isNewlySpawned u = false → s.status u = (E.status u).wakeup
  woken : ∀ u e, c.creator u = some e → a.place e = .passed →
    (∃ rest, s.ops e.thread = .wakeupThread u :: rest) ∨ s.restarted u = true ∨ s.status u = (E.status u).wakeup

theorem Course.restarted_of_ops (h : Course E c s a) (ho : s.ops t ≠ []) : s.restarted t = true := by
  by_contra hr
  exact ho (h.idle t (Bool.eq_false_iff.mpr hr)).1

theorem Course.restarted_of_passed {e : EventRef} (h : Course E c s a) (he : a.place e = .passed) :
    s.restarted e.thread = true := by
  obtain ⟨-, hlt | ⟨-, hpast⟩⟩ := (h.sim.passed e).mp he
  · by_contra hr
    rw [(h.idle _ (Bool.eq_false_iff.mpr hr)).2.2] at hlt
    exact Nat.not_lt_zero _ hlt
  · refine h.restarted_of_ops fun hnil => ?_
    rw [hnil] at hpast
    cases hpast

theorem canStep_go (hr : s.restarted t = true) (hgo : s.go E t ≠ none) : CanStep E s := by
  obtain ⟨s', hs'⟩ := Option.ne_none_iff_exists'.mp hgo
  exact ⟨.go t, s', nofun, trivial, by rw [exec, if_pos hr, hs']⟩

/-- A thread that has operations of the recording left can make the next one, or waits for its semaphore. -/
theorem Course.step_or_wait (h : Course E c s a) (hp : Plain E) (hE : E.Paired) (hpl : E.Placed) (hst : E.stale t = false)
    (hr : s.restarted t = true) {rem : List SyncCall} {hold hend : Hold} {op : ReplayOp} {post : List ReplayOp}
    (hcalls : E.calls t = (s.issued t).map Prod.fst ++ rem)
    (hops : s.ops t ++ rem.flatMap SyncCall.replay = op :: post ++ E.rest t)
    (hh : ∀ l p, hold l = some p ↔ a.HeldAt E t l p)
    (hf : Follows E c t hold (s.iter t) (op :: post) hend (E.syncevents t).length) :
    CanStep E s ∨ ∃ ops, s.ops t = .waitSemaphore :: ops ∧ s.sema t = 0 := by
  cases ho : s.ops t with
  | nil =>
    -- the next call is issued
    cases rem with
    | nil =>
      rw [ho] at hops
      cases hops
    | cons call rem =>
      refine .inl ⟨.issue t call, _, ?_, ?_, if_pos ⟨hr, ho, ?_⟩⟩
      · rintro _ _ ⟨⟩
        exact hst
      · refine .inr ?_
        rw [hcalls]
        exact ⟨rem, by rw [List.append_assoc]; rfl⟩
      · rw [ho, List.flatMap_cons] at hops
        have hprog := h.sim.program t
        rw [ho] at hprog
        have hlegal : ∀ m, op = .advanceSyncEvent (.mutex m) → holding (E.saved t m) (s.issued t) m = true := by
          rintro m rfl
          cases hf with
          | release hne _ =>
            obtain ⟨p, hp'⟩ := Option.ne_none_iff_exists'.mp hne
            rw [hpl.saved t hst, hp.startOwner]
            exact (hprog.1 m).mp ⟨p, (hh _ p).mp hp'⟩
        cases call with
        | mutexUnlock m | condWait m =>
          injection hops with hop _
          exact hlegal m hop.symm
        | mutexLock | mutexTrylock | threadCreate => rfl
  | cons op' ops =>
    rw [ho] at hops
    injection hops with hop _
    subst hop
    cases op' with
    | peekSyncEvent l =>
      cases hf with
      | @peek _ _ _ _ _ _ ev hev hl _ =>
        refine .inl (canStep_go hr ?_)
        have hnext : s.nextEvent E t = some ev := hev
        rw [Replay.go, ho]
        dsimp only
        rw [Replay.peekSyncEvent, hnext]
        dsimp only
        rw [if_pos ⟨(hE.listed t _ ev hev).1, hl⟩]
        simp
    | waitSemaphore =>
      by_cases hsema : 0 < s.sema t
      · refine .inl (canStep_go hr ?_)
        rw [Replay.go, ho]
        dsimp only
        rw [if_pos hsema]
        split <;> simp
      · exact .inr ⟨ops, rfl, by omega⟩
    | wakeupThread child =>
      refine .inl (canStep_go hr ?_)
      rw [Replay.go, ho]
      dsimp only
      split <;> simp
    | advanceThreadSyncList =>
      refine .inl (canStep_go hr ?_)
      rw [Replay.go, ho]
      simp
    | advanceSyncEvent l =>
      refine .inl (canStep_go hr ?_)
      obtain ⟨k, -, hcur, -⟩ := h.sim.release ho
      rw [Replay.go, ho]
      dsimp only
      rw [Replay.advanceSyncEvent, hcur]
      dsimp only
      split <;> simp
    | signalNextThread e =>
      refine .inl (canStep_go hr ?_)
      rw [Replay.go, ho]
      simp

theorem Moved.granted_le {a' : Turns} {op : ReplayOp} (h : s.Moved E t a a' op) (l : SyncVar) :
    a.granted l ≤ a'.granted l := by
  cases op with
  | waitSemaphore =>
    rw [Moved] at h
    split at h <;> subst h <;> exact Nat.le_refl _
  | advanceSyncEvent l' =>
    cases h
    rw [Turns.grant_granted]
    split
    · rename_i hl
      subst hl
      exact Nat.le_succ _
    · exact Nat.le_refl _
  | peekSyncEvent | wakeupThread | advanceThreadSyncList | signalNextThread =>
    exact Nat.le_of_eq (congrFun (Turns.Same.granted h) l).symm

/-- An event passes in `waitSemaphore`. -/
theorem Moved.passed {a' : Turns} {op : ReplayOp} {e : EventRef} (h : s.Moved E t a a' op) (he : a'.place e = .passed) :
    a.place e = .passed ∨ op = .waitSemaphore ∧ e = s.firstIterEntry t := by
  cases op with
  | waitSemaphore =>
    rw [Moved] at h
    split at h <;> subst h
    · by_cases heq : e = s.firstIterEntry t
      · exact .inr ⟨rfl, heq⟩
      · rw [Turns.move_place, if_neg heq] at he
        exact .inl he
    · exact .inl he
  | advanceSyncEvent l =>
    cases h
    simp only [Turns.grant] at he
    split at he
    · cases he
    · exact .inl he
  | peekSyncEvent | wakeupThread | advanceThreadSyncList | signalNextThread => exact .inl ((Turns.Same.passed h e).mp he)

/-- When the event of a `thread_create` passes, the wakeup of its thread is next. -/
theorem Course.wakeup_next {a' : Turns} {op : ReplayOp} {ops : List ReplayOp} {e : EventRef} (h : Course E c s a)
    (h' : Course E c s' a') (hp : Plain E) (hst : E.stale t = false) (hw : Went E s s' t op ops) (hop : op = .waitSemaphore)
    (he : e = s.firstIterEntry t) (hpass : a'.place e = .passed) (hu : c.creator u = some e) :
    ∃ rest, s'.ops t = .wakeupThread u :: rest := by
  subst hop he
  obtain ⟨rem, hold, post, hend, -, hpost, -, hf, -⟩ := (h.tracked t hst).next hw.head hw.peek
  have hprog := h.sim.program t
  rw [hw.head] at hprog
  -- what follows in the call is the wakeup
  have hops : ∃ rest, ops = .wakeupThread u :: rest := by
    cases hf with
    | wait _ _ _ hchild _ =>
      obtain ⟨rest, rfl⟩ := hchild u hu
      cases ops with
      | nil => cases hprog.1
      | cons op' ops =>
        injection hpost with hop' _
        exact ⟨ops, by rw [hop']⟩
    | fail hev hret _ => exact absurd (hp.ret t _ (List.mem_of_getElem? hev)) hret
  obtain ⟨rest, rfl⟩ := hops
  obtain ⟨next, hnext⟩ := hw.ops
  cases next with
  | nil => exact ⟨rest, hnext⟩
  | cons e' next =>
    obtain ⟨-, hlt | ⟨-, hpast⟩⟩ := (h'.sim.passed _).mp hpass
    · have hiter : s'.iter t = s.iter t := by rw [hw.iter, if_neg nofun]
      exact absurd (hiter ▸ hlt) (Nat.lt_irrefl _)
    · have hpast : stage (s'.ops t) = .past := hpast
      rw [hnext] at hpast
      cases hpast

theorem Awaited.go {a' : Turns} {op : ReplayOp} {ops : List ReplayOp} (h : Awaited E c s a) (hc : Course E c s a)
    (hs : Sent E committer s) (hc' : Course E c s' a') (hp : Plain E) (hw : Went E s s' t op ops) (hm : s.Moved E t a a' op)
    (hfresh : ∀ t, E.syncevents t ≠ [] → E.stale t = false) : Awaited E c s' a' := by
  refine ⟨fun l hl => Nat.lt_of_lt_of_le (h.granted l hl) (hm.granted_le l), fun u hu ha hn => ?_, fun u e hu he => ?_⟩
  · rw [hw.restarted] at hu
    rcases hw.status_of u with heq | heq
    · rw [heq]
      exact h.old u hu ha hn
    · rw [heq, h.old u hu ha hn, ThreadStatus.wakeup_wakeup]
  · rcases hm.passed he with hold | ⟨hop, hfirst⟩
    · rw [hw.restarted]
      rcases h.woken u e hu hold with ⟨rest, hnext⟩ | hr | hst
      · by_cases het : e.thread = t
        · -- the thread is woken now
          rw [het, hw.head] at hnext
          injection hnext with hop _
          subst hop
          have hpast : stage (s.ops t) = .past := by rw [hw.head]; rfl
          obtain ⟨ev, hev, hret⟩ := hc.sim.ret t (.inr hpast)
          have hzero : s.ret t = 0 := by
            rw [← hret]
            exact hp.ret t ev (List.mem_of_getElem? hev)
          cases hr : s.restarted u with
          | true => exact .inr (.inl rfl)
          | false =>
            refine .inr (.inr ?_)
            rw [hw.status]
            dsimp only
            rw [if_pos hzero, Function.update_self]
            rcases hs.status u hr with heq | heq
            · rw [heq]
            · rw [heq, ThreadStatus.wakeup_wakeup]
        · exact .inl ⟨rest, by rw [(hw.others _ het).1, hnext]⟩
      · exact .inr (.inl hr)
      · refine .inr (.inr ?_)
        rcases hw.status_of u with heq | heq
        · rw [heq, hst]
        · rw [heq, hst, ThreadStatus.wakeup_wakeup]
    · left
      have het : e.thread = t := by rw [hfirst]; rfl
      rw [het]
      have hst : E.stale t = false := het ▸ hfresh _ ((hc'.sim.passed e).mp he).1.ne_nil
      exact hc.wakeup_next hc' hp hst hw hop hfirst he hu

theorem Awaited.restart (h : Awaited E c s a) (hx : s.exec E (.restart t) = some s') : Awaited E c s' a := by
  rw [Replay.exec] at hx
  split at hx <;> cases hx
  -- the thread itself counts as restarted from now on
  have hself : ∀ u, Function.update s.restarted t true u = false → u ≠ t ∧ s.restarted u = false := by
    intro u hu
    by_cases hut : u = t
    · subst hut
      rw [Function.update_self] at hu
      cases hu
    · rw [Function.update_of_ne hut] at hu
      exact ⟨hut, hu⟩
  refine ⟨h.granted, fun u hu ha hn => ?_, fun u e hu he => ?_⟩
  · obtain ⟨hut, hu⟩ := hself u hu
    dsimp only
    rw [Function.update_of_ne hut]
    exact h.old u hu ha hn
  · by_cases hut : u = t
    · subst hut
      exact .inr (.inl (Function.update_self ..))
    · dsimp only
      rw [Function.update_of_ne hut, Function.update_of_ne hut]
      exact h.woken u e hu he

theorem Awaited.issue {call : SyncCall} (h : Awaited E c s a) (hx : s.exec E (.issue t call) = some s') :
    Awaited E c s' a := by
  rw [Replay.exec] at hx
  split at hx
  · rename_i hg
    cases hx
    refine ⟨h.granted, h.old, fun u e hu he => ?_⟩
    refine (h.woken u e hu he).imp_left ?_
    rintro ⟨rest, hnext⟩
    have het : e.thread ≠ t := by
      intro het
      rw [het, hg.2.1] at hnext
      cases hnext
    exact ⟨rest, by rw [setOps_ops, if_neg het]; exact hnext⟩
  · cases hx

theorem awaited_prepareRollback (hgr : ∀ l, E.list l ≠ [] → 0 < a.granted l) (hs : Sim E (prepareRollback E committer) a) :
    Awaited E c (prepareRollback E committer) a := by
  have hp := samePrograms_prepareRollback E committer
  refine ⟨hgr, fun u _ ha hn => ?_, fun u e _ he => ?_⟩
  · have hstatus : (prepareRollback E committer).status u =
        if E.alive u ∧ ¬ E.isNewlySpawned u then (E.status u).wakeup else E.status u := congrFun hp.status u
    rw [hstatus, if_pos ⟨ha, by rw [hn]; nofun⟩]
  · -- nothing has passed yet
    have hops : (prepareRollback E committer).ops e.thread = [] := congrFun hp.ops e.thread
    have hiter : (prepareRollback E committer).iter e.thread = 0 := congrFun hp.iter e.thread
    obtain ⟨-, hlt | ⟨-, hpast⟩⟩ := (hs.passed e).mp he
    · rw [hiter] at hlt
      exact absurd hlt (Nat.not_lt_zero _)
    · rw [hops] at hpast
      cases hpast

theorem Plain.recorded (hp : Plain E) (hE : Reachable Epoch.system E) : ∃ c now, E.Recorded c now := by
  refine Epoch.reachable_recorded hE (fun t _ _ m _ => ?_) fun t i m ev _ hev => ?_
  · rw [hp.startOwner]
    nofun
  · exact hp.ret t ev (List.mem_of_getElem? hev)

/-- `prepareRollback` visits every list that has events. -/
theorem mem_prepared (hE : Reachable Epoch.system E) {l : SyncVar} (hne : E.list l ≠ []) :
    l ∈ E.active.map SyncVar.mutex ++ [SyncVar.spawning] := by
  cases l with
  | mutex m => exact List.mem_append_left _ (List.mem_map_of_mem ((Epoch.reachable_active hE).mem m hne))
  | spawning => exact List.mem_append_right _ (List.mem_singleton_self _)

theorem Plain.awaited (hp : Plain E) (hE : Reachable Epoch.system E) (hres : Restartable E committer) (hR : E.Recorded c now)
    (h : Reachable ((system E committer).restrict (sameCalls E)) s) : ∃ a, Course E c s a ∧ Awaited E c s a := by
  have hl := Epoch.reachable_listed hE
  induction h with
  | init hs =>
    obtain ⟨-, rfl⟩ := hs
    obtain ⟨a, ha, hgr⟩ := sim_prepareRollback hl fun l e he => hp.good hl (List.mem_of_head? he)
    exact ⟨a, course_prepareRollback hR ha, awaited_prepareRollback (fun l hne => hgr l hne (mem_prepared hE hne)) ha⟩
  | @step s s' act hreach hx ih =>
    obtain ⟨a, hc, ha⟩ := ih
    obtain ⟨hsame, hx⟩ := hx
    have hs := reachable_sent hreach.of_restrict
    have hok := hp.admits hE hres.savedFree hs hx
    cases act with
    | restart t => exact ⟨a, hc.restart hx, ha.restart hx⟩
    | issue t call => exact ⟨a, hc.issue hok hsame hx, ha.issue hx⟩
    | go t =>
      have hx : (if s.restarted t then s.go E t else none) = some s' := hx
      split at hx
      · rename_i hr
        obtain ⟨a', op, ops, hc', hw, hm⟩ := hc.go hl hok hx hr
        exact ⟨a', hc', ha.go hc hs hc' hp hw hm hres.fresh⟩
      · cases hx

/-! ### The first event that has not passed -/

/-- A thread past its semaphore, or about to signal, does not stop there. -/
theorem Course.canStep_midway (h : Course E c s a) (hcalm : stage (s.ops t) ≠ .calm) (hwait : stage (s.ops t) ≠ .waiting) :
    CanStep E s := by
  have hr : s.restarted t = true := by
    refine h.restarted_of_ops fun hnil => ?_
    rw [hnil] at hcalm
    exact hcalm rfl
  refine canStep_go hr ?_
  rw [Replay.go]
  split
  · rename_i hops
    rw [hops] at hcalm
    exact absurd rfl hcalm
  · rename_i hops
    rw [hops] at hcalm
    exact absurd rfl hcalm
  · rename_i hops
    rw [hops] at hwait
    exact absurd rfl hwait
  · split <;> simp
  · simp
  · rename_i hops
    rw [hops] at hcalm
    exact absurd rfl hcalm
  · simp

section
variable (h : Course E c s a) (hE : Reachable Epoch.system E) (hR : E.Recorded c now) {e : EventRef}
  (hfirst : ∀ t i, i < (E.syncevents t).length → c.time ⟨t, i⟩ < c.time e → a.place ⟨t, i⟩ = .passed)
include h hE hR hfirst

/-- The thread of the first event that has not passed can be restarted. -/
theorem Course.canStep_restart (ha : Awaited E c s a) (hs : Sent E committer s) (hres : Restartable E committer)
    (he : e.index < (E.syncevents e.thread).length) (hr : s.restarted e.thread = false) : CanStep E s := by
  have hpl := Epoch.reachable_placed hE
  have hne : E.syncevents e.thread ≠ [] := by
    intro hnil
    rw [hnil] at he
    exact Nat.not_lt_zero _ he
  have halive : E.alive e.thread = true := by
    by_contra hdead
    exact hne (hR.alive _ (Bool.eq_false_iff.mpr hdead))
  suffices hst : CanStep E s ∨ s.status e.thread = (E.status e.thread).wakeup by
    rcases hst with hgo | hst
    · exact hgo
    · refine ⟨.restart e.thread, _, nofun, trivial, if_pos ?_⟩
      rw [canRestart, halive, hr, hst]
      cases hc : E.condwait e.thread with
      | none =>
        rcases hpl.awake _ hc with hrun | hreap
        · obtain ⟨hself, hold⟩ := hres.running _ hne hrun
          rw [hrun, hold, hs.committer, hself]
          simp [ThreadStatus.wakeup]
        · rw [hreap]
          rfl
      | some m =>
        rw [(hpl.asleep _ m hc).1, Option.all_some, hres.asleep _ m hc hne]
        rfl
  cases hnew : E.isNewlySpawned e.thread with
  | false => exact .inr (ha.old _ hr halive hnew)
  | true =>
    -- its `thread_create` has passed
    obtain ⟨e', hcreator⟩ := hR.spawned _ hnew
    obtain ⟨⟨l, hl⟩, hbefore⟩ := hR.creator _ e' hcreator
    obtain ⟨ev, hev, -⟩ := (Epoch.reachable_listed hE).ref l e' hl
    have hpassed := hfirst e'.thread e'.index (List.getElem?_eq_some_iff.mp hev).1 (hbefore _ he)
    rcases ha.woken _ e' hcreator hpassed with ⟨rest, hops⟩ | hrestarted | hst
    · exact .inl (h.canStep_midway (t := e'.thread) (by rw [hops]; rintro ⟨⟩) (by rw [hops]; rintro ⟨⟩))
    · rw [hr] at hrestarted
      cases hrestarted
    · exact .inr hst

/-- The thread that holds the turn of the list can go on. -/
theorem Course.canStep_holder {l : SyncVar} {q p : Nat} (hp : Plain E) (hres : Restartable E committer)
    (hv : a.HeldAt E t l q) (hqp : q < p) (he : (E.list l)[p]? = some e) : CanStep E s := by
  have hl := Epoch.reachable_listed hE
  have hpaired := Epoch.reachable_paired hE
  have hgood : E.Good e := hp.good hl (List.mem_of_getElem? he)
  obtain ⟨hr, hst⟩ : s.restarted t = true ∧ E.stale t = false := by
    obtain ⟨e', -, -, rfl, hpassed⟩ := hv
    exact ⟨h.restarted_of_passed hpassed, hres.fresh _ ((h.sim.passed e').mp hpassed).1.ne_nil⟩
  obtain ⟨rem, hold, post, hend, hcalls, hpost, hh, hf, hk⟩ := h.tracked t hst
  have hheld : hold l = some q := (hh l q).mpr hv
  cases post with
  | nil =>
    -- at the end of the epoch the thread held only what nobody has taken after it
    obtain ⟨rfl, -⟩ := Follows.nil_eq hf
    cases l with
    | mutex m =>
      obtain ⟨-, -, -, -, -, hlast⟩ := hk.mutex m q hheld
      exact absurd hgood (hlast p e hqp he)
    | spawning =>
      rw [hk.spawning] at hheld
      cases hheld
  | cons op post =>
    rcases h.step_or_wait hp hpaired (Epoch.reachable_placed hE) hst hr hcalls hpost hh hf with hgo | ⟨ops, hops, -⟩
    · exact hgo
    · -- the event it waits for comes before the successor of what it holds, so it has passed
      rw [hops] at hpost
      injection hpost with hop _
      subst hop
      cases hf with
      | @wait _ _ _ _ _ l' p' _ hgood' hbefore _ _ =>
        obtain ⟨ev, hev, -⟩ := hgood'
        have hq : q + 1 < (E.list l).length := by
          have := (List.getElem?_eq_some_iff.mp he).1
          omega
        have hnext : (E.list l)[q + 1]? = some (E.list l)[q + 1] := List.getElem?_eq_getElem hq
        have hlt : c.time ⟨t, s.iter t⟩ < c.time (E.list l)[q + 1] :=
          hbefore l q _ hheld hnext (hp.good hl (List.mem_of_getElem? hnext))
        have hle : c.time (E.list l)[q + 1] ≤ c.time e := by
          rcases Nat.lt_or_eq_of_le (Nat.succ_le_of_lt hqp) with hlt' | heq
          · exact Nat.le_of_lt (hR.timed.list_lt hlt' hnext he)
          · have heq : q + 1 = p := heq
            subst heq
            rw [he] at hnext
            exact Nat.le_of_eq (congrArg c.time (Option.some.inj hnext).symm)
        have hpassed := hfirst t (s.iter t) (List.getElem?_eq_some_iff.mp hev).1 (Nat.lt_of_lt_of_le hlt hle)
        obtain ⟨-, hlt' | ⟨-, hpast⟩⟩ := (h.sim.passed _).mp hpassed
        · exact absurd hlt' (Nat.lt_irrefl _)
        · have hpast : stage (s.ops t) = .past := hpast
          rw [hops] at hpast
          cases hpast
      | fail hev hret _ => exact absurd (hp.ret t _ (List.mem_of_getElem? hev)) hret

theorem Course.canStep_first (hp : Plain E) (ha : Awaited E c s a) (hs : Sent E committer s) (hres : Restartable E committer)
    (he : e.index < (E.syncevents e.thread).length) (hne : a.place e ≠ .passed) : CanStep E s := by
  have hl := Epoch.reachable_listed hE
  have hpaired := Epoch.reachable_paired hE
  obtain ⟨t, i⟩ := e
  dsimp only at he
  obtain ⟨-, p, hpos⟩ := hpaired.listed t i _ (List.getElem?_eq_getElem he)
  generalize ((E.syncevents t)[i]).eventlist = l at hpos
  have hgood : E.Good ⟨t, i⟩ := hp.good hl (List.mem_of_getElem? hpos)
  have hnot : ¬ s.Beyond ⟨t, i⟩ := fun hb => hne ((h.sim.passed _).mpr ⟨hgood, hb⟩)
  rcases Nat.lt_trichotomy i (s.iter t) with hlt | rfl | hgt
  · exact absurd (.inl hlt) hnot
  · cases hr : s.restarted t with
    | false => exact h.canStep_restart hE hR hfirst ha hs hres he hr
    | true =>
      have hst : E.stale t = false := hres.fresh t (List.ne_nil_of_length_pos (Nat.lt_of_le_of_lt (Nat.zero_le _) he))
      obtain ⟨rem, hold, post, hend, hcalls, hpost, hh, hf, -⟩ := h.tracked t hst
      cases post with
      | nil =>
        obtain ⟨-, hlen⟩ := Follows.nil_eq hf
        omega
      | cons op post =>
        rcases h.step_or_wait hp hpaired (Epoch.reachable_placed hE) hst hr hcalls hpost hh hf with hgo | ⟨ops, hops, hsema⟩
        · exact hgo
        · -- where the turn of the event is
          have hst : stage (s.ops t) = .waiting := by rw [hops]; rfl
          cases hplace : a.place ⟨t, s.iter t⟩ with
          | passed => exact absurd hplace hne
          | ready =>
            rw [h.sim.grants.sema, firstIterEntry, if_pos hplace] at hsema
            cases hsema
          | pending => exact absurd hplace (h.sim.waiting t hst)
          | signalled u =>
            have hsig := (h.sim.signalled u _).mp hplace
            exact h.canStep_midway (t := u) (by rw [hsig]; simp) (by rw [hsig]; simp)
          | idle =>
            have hgr : 0 < a.granted l := by
              refine ha.granted l fun hnil => ?_
              rw [hnil] at hpos
              cases hpos
            have hle : a.granted l ≤ p := by
              by_contra hlt
              rcases Nat.lt_or_eq_of_le (Nat.succ_le_of_lt (Nat.lt_of_not_le hlt)) with hlt' | heq
              · rw [h.sim.inOrder.before l p _ hpos hlt'] at hplace
                cases hplace
              · exact h.sim.inOrder.current l p _ hpos heq hplace
            have hplen : p < (E.list l).length := (List.getElem?_eq_some_iff.mp hpos).1
            have hq : (E.list l)[a.granted l - 1]? = some (E.list l)[a.granted l - 1] :=
              List.getElem?_eq_getElem (by omega)
            obtain ⟨ev, hev, -⟩ := hl.ref l _ (List.mem_of_getElem? hq)
            have hpassed := hfirst _ _ (List.getElem?_eq_some_iff.mp hev).1 (hR.timed.list_lt (by omega) hq hpos)
            exact h.canStep_holder hE hR hfirst hp hres ⟨_, hq, by omega, rfl, hpassed⟩ (by omega) hpos
  · -- an earlier event of the thread has passed, and the thread has not gone on yet
    have hpassed := hfirst t (s.iter t) (Nat.lt_trans hgt he) (hR.timed.pool t _ i hgt he)
    obtain ⟨-, hlt | ⟨-, hpast⟩⟩ := (h.sim.passed _).mp hpassed
    · exact absurd hlt (Nat.lt_irrefl _)
    · have hpast : stage (s.ops t) = .past := hpast
      exact h.canStep_midway (by rw [hpast]; simp) (by rw [hpast]; simp)

end

theorem Course.canStep_unpassed (h : Course E c s a) (hp : Plain E) (hE : Reachable Epoch.system E) (hR : E.Recorded c now)
    (ha : Awaited E c s a) (hs : Sent E committer s) (hres : Restartable E committer) (e : EventRef) (he : e.index < (E.syncevents e.thread).length)
    (hne : a.place e ≠ .passed) : CanStep E s := by
  induction hn : c.time e using Nat.strongRecOn generalizing e with
  | ind n ih =>
    subst hn
    by_cases hfirst : ∀ t i, i < (E.syncevents t).length → c.time ⟨t, i⟩ < c.time e → a.place ⟨t, i⟩ = .passed
    · exact h.canStep_first hE hR hfirst hp ha hs hres he hne
    · push Not at hfirst
      obtain ⟨t, i, hi, hlt, hne'⟩ := hfirst
      exact ih _ hlt ⟨t, i⟩ hi hne' rfl

theorem twoLocks_restartable : Restartable twoLocks 1 := by
  refine ⟨twoLocks_savedFree, fun _ _ => rfl, fun t hne hrun => ?_, fun t m hm => ?_⟩
  · rcases t with _ | _ | t
    · cases hrun
    · exact ⟨rfl, rfl⟩
    · exact absurd rfl hne
  · rcases t with _ | t <;> cases hm

/-- Thread 1 locks and unlocks a mutex and is running when thread 0 ends the epoch. -/
def locksAndRuns : Epoch := ([.mutexLock 1 5, .record 1, .mutexUnlock 1 5].foldlM Epoch.exec Epoch.start).getD Epoch.start

theorem locksAndRuns_reachable : Reachable Epoch.system locksAndRuns :=
  Epoch.reachable_run [.mutexLock 1 5, .record 1, .mutexUnlock 1 5] (.init Epoch.start_began) rfl

theorem locksAndRuns_ended : locksAndRuns.Ended := by
  refine ⟨fun t => ?_, fun t u c ht _ => ?_⟩
  · rcases t with _ | _ | t <;> rfl
  · rcases t with _ | _ | t <;> cases ht

theorem locksAndRuns_plain : Plain locksAndRuns := by
  refine ⟨fun _ => rfl, fun t ev hev => ?_⟩
  rcases t with _ | _ | t
  · cases show ev ∈ [] from hev
  · cases List.mem_singleton.mp (show ev ∈ [⟨1, .mutex 5, 0⟩] from hev)
    rfl
  · cases show ev ∈ [] from hev

end Replay

end DoubleTake
