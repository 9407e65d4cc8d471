import DoubleTake.Theorems.Restarts

/-! The replay keeps the recorded order: its semaphores, pending lists and current entries are turns on the lists. -/

namespace DoubleTake

open Transition

/-- Where a thread stands in a call, by its next operation. -/
inductive Stage where
  | calm
  | waiting
  | past
  | signalling (e : EventRef)
  deriving DecidableEq

def stage : List ReplayOp → Stage
  | .waitSemaphore :: _ => .waiting
  | .wakeupThread _ :: _ | .advanceThreadSyncList :: _ => .past
  | .signalNextThread e :: _ => .signalling e
  | _ => .calm

/-- The operations that are left of a call take the turns that are held to those the caller knows of afterwards; `cur`
    is the next event of the thread. Only what is held is released. -/
def Disciplined (final : Nat → Bool) : Option SyncEvent → (SyncVar → Prop) → List ReplayOp → Prop
  | _, held, [] => (∀ m, held (.mutex m) ↔ final m = true) ∧ ¬ held .spawning
  | cur, held, .peekSyncEvent l :: ops =>
    stage ops = .waiting ∧ ∀ ev, cur = some ev → ev.eventlist = l → Disciplined final cur held ops
  | cur, held, .waitSemaphore :: ops =>
    stage ops = .past ∧ ∃ ev, cur = some ev ∧
      Disciplined final cur (fun l => (ev.ret = 0 ∧ l = ev.eventlist) ∨ held l) ops
  | cur, held, .wakeupThread _ :: ops => stage ops = .past ∧ Disciplined final cur held ops
  | cur, held, .advanceThreadSyncList :: ops =>
    stage ops = .calm ∧ cur ≠ none ∧ ∀ cur', Disciplined final cur' held ops
  | cur, held, .advanceSyncEvent l :: ops =>
    stage ops = .calm ∧ held l ∧ Disciplined final cur (fun l' => l' ≠ l ∧ held l') ops
  | cur, held, .signalNextThread _ :: ops => stage ops = .calm ∧ Disciplined final cur held ops

theorem Disciplined.congr {final : Nat → Bool} {ops : List ReplayOp} {cur : Option SyncEvent} {held held' : SyncVar → Prop}
    (h : Disciplined final cur held ops) (hiff : ∀ l, held' l ↔ held l) : Disciplined final cur held' ops := by
  obtain rfl : held' = held := funext fun l => propext (hiff l)
  exact h

theorem holding_append (held : Bool) (calls : List (SyncCall × Bool)) (c : SyncCall × Bool) (m : Nat) :
    holding held (calls ++ [c]) m = SyncCall.holdsAfter m (holding held calls m) c := by
  simp [holding]

/-- The replay branch of a call, from the turns that are held when it is issued. -/
theorem SyncCall.replay_disciplined {c : SyncCall} {calls : List (SyncCall × Bool)} {cur : Option SyncEvent}
    {held : SyncVar → Prop} (h : Disciplined (holding false calls) cur held [])
    (hrel : ∀ m, c.releases = some m → holding false calls m = true)
    (hret : ∀ ev, cur = some ev → (∃ m, c = .condWait m) ∨ (∃ u, c = .threadCreate u) → ev.ret = 0) :
    Disciplined (holding false (calls ++ [(c, cur.all fun ev => ev.ret == 0)])) cur held c.replay := by
  obtain ⟨hheld, hspawn⟩ := h
  cases c with
  | mutexLock m | mutexTrylock m =>
    refine ⟨rfl, fun ev hev hl => ⟨rfl, ev, hev, rfl, by simp [hev], fun cur' => ⟨fun m' => ?_, ?_⟩⟩⟩
    · rw [holding_append]
      by_cases hr : ev.ret = 0 <;> simp [hev, hl, hr, SyncCall.holdsAfter, hheld, or_comm, eq_comm (a := m)]
    · simp [hl, hspawn]
  | mutexUnlock m =>
    refine ⟨rfl, (hheld m).mpr (hrel m rfl), fun m' => ?_, ?_⟩
    · rw [holding_append]
      simp [SyncCall.holdsAfter, hheld, and_comm, eq_comm (a := m)]
    · simp [hspawn]
  | condWait m =>
    refine ⟨rfl, (hheld m).mpr (hrel m rfl), rfl, fun ev hev hl => ⟨rfl, ev, hev, rfl, by simp [hev], fun cur' => ⟨fun m' => ?_, ?_⟩⟩⟩
    · have hr := hret ev hev (.inl ⟨m, rfl⟩)
      rw [holding_append]
      by_cases hm : m' = m <;> simp [hl, hr, hm, SyncCall.holdsAfter, hheld, eq_comm (a := m)]
    · simp [hl, hspawn]
  | threadCreate u =>
    refine ⟨rfl, fun ev hev hl => ⟨rfl, ev, hev, rfl, rfl, by simp [hev], fun cur' => ⟨rfl, ?_, fun m' => ?_, ?_⟩⟩⟩
    · exact .inl ⟨hret ev hev (.inr ⟨u, rfl⟩), hl.symm⟩
    · rw [holding_append]
      simp [hl, SyncCall.holdsAfter, hheld]
    · simp

/-- The event is recorded with the result 0. -/
def Epoch.Good (E : Epoch) (e : EventRef) : Prop :=
  ∃ ev, (E.syncevents e.thread)[e.index]? = some ev ∧ ev.ret = 0

/-- The passage is on this list. -/
def Passage.on (E : Epoch) (l : SyncVar) : Passage → Bool
  | .pass e => e ∈ E.list l
  | .release _ l' => l' = l

namespace Replay

variable {E : Epoch} {s s' : Replay} {a a' : Turns} {e : EventRef} {l : SyncVar} {t u committer : Nat} {ops : List ReplayOp}

/-- The semaphores and the pending lists hold the turns that are ready and those that are pending. -/
structure Grants (s : Replay) (a : Turns) : Prop where
  pending : ∀ t e, e ∈ s.pendingSyncevents t ↔ a.place e = .pending ∧ e.thread = t
  nodup : ∀ t, (s.pendingSyncevents t).Nodup
  sema : ∀ t, s.sema t = if a.place (s.firstIterEntry t) = .ready then 1 else 0
  ready : ∀ e, a.place e = .ready → e = s.firstIterEntry e.thread

theorem Grants.sema_le (h : Grants s a) (t : Nat) : s.sema t ≤ 1 := by
  rw [h.sema]
  split <;> omega

/-- The turns that are neither ready nor pending do not matter to them. -/
theorem Grants.congr (h : Grants s a) (hp : s'.pendingSyncevents = s.pendingSyncevents) (hs : s'.sema = s.sema)
    (hi : s'.iter = s.iter) (hpend : ∀ e, a'.place e = .pending ↔ a.place e = .pending)
    (hready : ∀ e, a'.place e = .ready ↔ a.place e = .ready) : Grants s' a' := by
  have hfirst : ∀ t, s'.firstIterEntry t = s.firstIterEntry t := fun t => by simp [firstIterEntry, hi]
  constructor
  · intro t e
    rw [hp, hpend]
    exact h.pending t e
  · intro t
    rw [hp]
    exact h.nodup t
  · intro t
    simp only [hs, hfirst, hready]
    exact h.sema t
  · intro e he
    rw [hfirst]
    exact h.ready e ((hready e).mp he)

/-- `signalNextThread` takes a turn to the semaphore or to the pending list. -/
theorem Grants.signalNextThread (h : Grants s a) (hpend : a.place e ≠ .pending) (hready : a.place e ≠ .ready) :
    Grants (s.signalNextThread e) (a.move e (if e = s.firstIterEntry e.thread then .ready else .pending)) := by
  have hnot : ∀ t, e ∉ s.pendingSyncevents t := fun t he => hpend ((h.pending t e).mp he).1
  rw [Replay.signalNextThread]
  split
  · rename_i hfirst
    constructor
    · intro t e'
      show e' ∈ s.pendingSyncevents t ↔ _
      rw [h.pending, Turns.move_place]
      by_cases heq : e' = e
      · simp [heq, hpend]
      · simp [heq]
    · exact h.nodup
    · intro t
      show Function.update s.sema e.thread (s.sema e.thread + 1) t = if (a.move e .ready).place (s.firstIterEntry t) = _ then _ else _
      by_cases ht : t = e.thread
      · subst ht
        have h0 : s.sema e.thread = 0 := by rw [h.sema, ← hfirst, if_neg hready]
        simp [h0, ← hfirst]
      · have hne : s.firstIterEntry t ≠ e := fun heq => ht (by rw [← heq]; rfl)
        rw [Function.update_of_ne ht, h.sema, Turns.move_place, if_neg hne]
    · intro e' he'
      by_cases heq : e' = e
      · rw [heq]
        exact hfirst
      · rw [Turns.move_place, if_neg heq] at he'
        exact h.ready e' he'
  · rename_i hfirst
    constructor
    · intro t e'
      show e' ∈ Function.update s.pendingSyncevents e.thread (s.pendingSyncevents e.thread ++ [e]) t ↔ _
      by_cases ht : t = e.thread
      · subst ht
        by_cases heq : e' = e
        · simp [heq]
        · simp [heq, h.pending]
      · rw [Function.update_of_ne ht, h.pending]
        by_cases heq : e' = e
        · simp [heq, hpend, Ne.symm ht]
        · simp [heq]
    · intro t
      show (Function.update s.pendingSyncevents e.thread (s.pendingSyncevents e.thread ++ [e]) t).Nodup
      by_cases ht : t = e.thread
      · subst ht
        rw [Function.update_self]
        refine List.nodup_append.mpr ⟨h.nodup _, List.nodup_singleton e, ?_⟩
        rintro x hx y hy rfl
        rw [List.mem_singleton.mp hy] at hx
        exact hnot _ hx
      · rw [Function.update_of_ne ht]
        exact h.nodup t
    · intro t
      show s.sema t = if (a.move e .pending).place (s.firstIterEntry t) = _ then _ else _
      rw [h.sema, Turns.move_place]
      by_cases heq : s.firstIterEntry t = e
      · simp [heq, hready]
      · simp [heq]
    · intro e' he'
      by_cases heq : e' = e
      · subst heq
        simp at he'
      · rw [Turns.move_place, if_neg heq] at he'
        exact h.ready e' he'

/-- `signalCurrentThread` finds the turn of the next event on the pending list. -/
theorem Grants.signalCurrentThread (h : Grants s a) (hpend : a.place (s.firstIterEntry t) = .pending) :
    Grants (s.signalCurrentThread (s.firstIterEntry t)) (a.move (s.firstIterEntry t) .ready) := by
  have hmem : s.firstIterEntry t ∈ s.pendingSyncevents (s.firstIterEntry t).thread := (h.pending t _).mpr ⟨hpend, rfl⟩
  rw [Replay.signalCurrentThread, if_pos hmem]
  constructor
  · intro u e
    show e ∈ Function.update s.pendingSyncevents t ((s.pendingSyncevents t).erase (s.firstIterEntry t)) u ↔ _
    by_cases hu : u = t
    · subst hu
      rw [Function.update_self, (h.nodup u).mem_erase_iff, h.pending]
      by_cases heq : e = s.firstIterEntry u <;> simp [heq]
    · rw [Function.update_of_ne hu, h.pending]
      by_cases heq : e = s.firstIterEntry t
      · have ht : (s.firstIterEntry t).thread = t := rfl
        simp [heq, ht, Ne.symm hu]
      · simp [heq]
  · intro u
    show (Function.update s.pendingSyncevents t ((s.pendingSyncevents t).erase (s.firstIterEntry t)) u).Nodup
    by_cases hu : u = t
    · subst hu
      rw [Function.update_self]
      exact (h.nodup u).erase _
    · rw [Function.update_of_ne hu]
      exact h.nodup u
  · intro u
    show Function.update s.sema t (s.sema t + 1) u = if (a.move _ .ready).place (s.firstIterEntry u) = _ then _ else _
    by_cases hu : u = t
    · subst hu
      have h0 : s.sema u = 0 := by rw [h.sema, hpend, if_neg (by decide)]
      simp [h0]
    · have hne : s.firstIterEntry u ≠ s.firstIterEntry t := fun heq => hu (congrArg EventRef.thread heq)
      rw [Function.update_of_ne hu, h.sema, Turns.move_place, if_neg hne]
  · intro e he
    by_cases heq : e = s.firstIterEntry t
    · rw [heq]
      rfl
    · rw [Turns.move_place, if_neg heq] at he
      exact h.ready e he

theorem Grants.waitSemaphore (h : Grants s a) (hready : a.place (s.firstIterEntry t) = .ready) :
    Grants { s with sema := Function.update s.sema t (s.sema t - 1) } (a.move (s.firstIterEntry t) .passed) := by
  constructor
  · intro u e
    show e ∈ s.pendingSyncevents u ↔ _
    rw [h.pending, Turns.move_place]
    by_cases heq : e = s.firstIterEntry t
    · simp [heq, hready]
    · simp [heq]
  · exact h.nodup
  · intro u
    show Function.update s.sema t (s.sema t - 1) u = if (a.move _ .passed).place (s.firstIterEntry u) = _ then _ else _
    by_cases hu : u = t
    · subst hu
      have h1 : s.sema u = 1 := by rw [h.sema, if_pos hready]
      simp [h1]
    · have hne : s.firstIterEntry u ≠ s.firstIterEntry t := fun heq => hu (congrArg EventRef.thread heq)
      rw [Function.update_of_ne hu, h.sema, Turns.move_place, if_neg hne]
  · intro e he
    by_cases heq : e = s.firstIterEntry t
    · subst heq
      simp at he
    · rw [Turns.move_place, if_neg heq] at he
      exact h.ready e he

theorem Grants.advanceThreadSyncList (h : Grants s a) (hready : a.place (s.firstIterEntry t) ≠ .ready) :
    Grants (s.advanceThreadSyncList t) a := by
  have hnext : a.place ⟨t, s.iter t + 1⟩ ≠ .ready := by
    intro hr
    have heq := congrArg EventRef.index (h.ready _ hr)
    simp [firstIterEntry] at heq
  constructor
  · exact h.pending
  · exact h.nodup
  · intro u
    show s.sema u = if a.place ⟨u, Function.update s.iter t (s.iter t + 1) u⟩ = _ then _ else _
    by_cases hu : u = t
    · subst hu
      rw [Function.update_self, if_neg hnext, h.sema, if_neg hready]
    · rw [Function.update_of_ne hu]
      exact h.sema u
  · intro e he
    have hfirst := h.ready e he
    have ht : e.thread ≠ t := by
      rintro rfl
      exact hready (hfirst ▸ he)
    simpa [firstIterEntry, Replay.advanceThreadSyncList, Function.update_of_ne ht] using hfirst

/-- The thread of the event has passed `waitSemaphore` for it. -/
def Beyond (s : Replay) (e : EventRef) : Prop :=
  e.index < s.iter e.thread ∨ e = s.firstIterEntry e.thread ∧ stage (s.ops e.thread) = .past

/-- The state of the replay, as turns on the lists. -/
structure Sim (E : Epoch) (s : Replay) (a : Turns) : Prop where
  inOrder : a.InOrder E
  good : ∀ e, a.place e ≠ .idle → E.Good e
  grants : Grants s a
  curentry : ∀ l, 0 < a.granted l →
    s.curentry l = if a.granted l ≤ (E.list l).length then some (a.granted l - 1) else none
  signalled : ∀ t e, a.place e = .signalled t ↔ stage (s.ops t) = .signalling e
  passed : ∀ e, a.place e = .passed ↔ E.Good e ∧ s.Beyond e
  waiting : ∀ t, stage (s.ops t) = .waiting → a.place (s.firstIterEntry t) ≠ .pending
  ret : ∀ t, stage (s.ops t) = .waiting ∨ stage (s.ops t) = .past → ∃ ev, s.nextEvent E t = some ev ∧ ev.ret = s.ret t
  program : ∀ t, Disciplined (holding false (s.issued t)) (s.nextEvent E t) (a.Held E t) (s.ops t)
  log : ∀ l, s.log.filter (·.on E l) = a.shown E l

/-- The event that has the turn of a list is its current entry. -/
theorem Sim.curentry_eq {p : Nat} (h : Sim E s a) (he : (E.list l)[p]? = some e) (hp : p + 1 = a.granted l) :
    s.curentry l = some p := by
  have hlen : p < (E.list l).length := (List.getElem?_eq_some_iff.mp he).1
  rw [h.curentry l (by omega), ← hp, if_pos (by omega)]
  rfl

/-- `peekSyncEvent` takes the turn of the next event from the pending list, if it is there. -/
theorem Sim.signalCurrentThread (h : Sim E s a) (t : Nat) : ∃ a', Turns.Same a a' ∧
    Grants (s.signalCurrentThread (s.firstIterEntry t)) a' ∧ a'.place (s.firstIterEntry t) ≠ .pending ∧
    (∀ e, e ≠ s.firstIterEntry t → a'.place e = a.place e) ∧
    ∀ u e, a'.place e = .signalled u ↔ a.place e = .signalled u := by
  by_cases hpend : a.place (s.firstIterEntry t) = .pending
  · refine ⟨_, Turns.Same.move (by simp [hpend]) (by simp [hpend]) (by decide) (by decide),
      h.grants.signalCurrentThread hpend, by simp, fun e he => by simp [he], fun u e => ?_⟩
    by_cases heq : e = s.firstIterEntry t <;> simp [heq, hpend]
  · have hnot : s.firstIterEntry t ∉ s.pendingSyncevents (s.firstIterEntry t).thread :=
      fun hmem => hpend ((h.grants.pending _ _).mp hmem).1
    rw [Replay.signalCurrentThread, if_neg hnot]
    exact ⟨a, .refl a, h.grants, hpend, fun _ _ => rfl, fun _ _ => Iff.rfl⟩

/-- A step of `t` on its operations: what the other threads see of it. -/
structure Local (t : Nat) (ops : List ReplayOp) (s s' : Replay) : Prop where
  ops : ∀ u, s'.ops u = if u = t then ops else s.ops u
  ret : ∀ u, u ≠ t → s'.ret u = s.ret u
  iter : ∀ u, u ≠ t → s'.iter u = s.iter u
  issued : ∀ u, u ≠ t → s'.issued u = s.issued u

theorem Local.ops_self (h : Local t ops s s') : s'.ops t = ops := by rw [h.ops, if_pos rfl]

theorem Local.ops_other (h : Local t ops s s') (hu : u ≠ t) : s'.ops u = s.ops u := by rw [h.ops, if_neg hu]

theorem Local.first_other (h : Local t ops s s') (hu : u ≠ t) : s'.firstIterEntry u = s.firstIterEntry u := by
  rw [firstIterEntry, h.iter u hu]
  rfl

theorem Local.nextEvent_other (h : Local t ops s s') (hu : u ≠ t) : s'.nextEvent E u = s.nextEvent E u := by
  rw [nextEvent, h.iter u hu]
  rfl

theorem Local.beyond_other (h : Local t ops s s') (he : e.thread ≠ t) : s'.Beyond e ↔ s.Beyond e := by
  rw [Beyond, h.first_other he, h.iter _ he, h.ops_other he]
  rfl

/-- A step keeps the simulation when it does so for the thread that makes it. -/
theorem Sim.of_local (h : Sim E s a) (hloc : Local t ops s s') (ho : a'.InOrder E) (hgood : ∀ e, a'.place e ≠ .idle → E.Good e)
    (hgrants : Grants s' a')
    (hcur : ∀ l, 0 < a'.granted l → s'.curentry l = if a'.granted l ≤ (E.list l).length then some (a'.granted l - 1) else none)
    (hsig : ∀ u e, u ≠ t → (a'.place e = .signalled u ↔ a.place e = .signalled u))
    (hsig_t : ∀ e, a'.place e = .signalled t ↔ stage ops = .signalling e)
    (hpass : ∀ e, e.thread ≠ t → (a'.place e = .passed ↔ a.place e = .passed))
    (hpass_t : ∀ e, e.thread = t → (a'.place e = .passed ↔ E.Good e ∧ s'.Beyond e))
    (hwait : ∀ u, u ≠ t → stage (s.ops u) = .waiting → a'.place (s.firstIterEntry u) ≠ .pending)
    (hwait_t : stage ops = .waiting → a'.place (s'.firstIterEntry t) ≠ .pending)
    (hret_t : stage ops = .waiting ∨ stage ops = .past → ∃ ev, s'.nextEvent E t = some ev ∧ ev.ret = s'.ret t)
    (hheld : ∀ u l, u ≠ t → (a'.Held E u l ↔ a.Held E u l))
    (hprog_t : Disciplined (holding false (s'.issued t)) (s'.nextEvent E t) (a'.Held E t) ops)
    (hlog : ∀ l, s'.log.filter (·.on E l) = a'.shown E l) : Sim E s' a' := by
  refine ⟨ho, hgood, hgrants, hcur, fun u e => ?_, fun e => ?_, fun u hu => ?_, fun u hu => ?_, fun u => ?_, hlog⟩
  · by_cases hut : u = t
    · subst hut
      rw [hloc.ops_self]
      exact hsig_t e
    · rw [hloc.ops_other hut, hsig u e hut]
      exact h.signalled u e
  · by_cases het : e.thread = t
    · exact hpass_t e het
    · rw [hpass e het, h.passed, hloc.beyond_other het]
  · by_cases hut : u = t
    · subst hut
      rw [hloc.ops_self] at hu
      exact hwait_t hu
    · rw [hloc.ops_other hut] at hu
      rw [hloc.first_other hut]
      exact hwait u hut hu
  · by_cases hut : u = t
    · subst hut
      rw [hloc.ops_self] at hu
      exact hret_t hu
    · rw [hloc.ops_other hut] at hu
      rw [hloc.nextEvent_other hut, hloc.ret u hut]
      exact h.ret u hu
  · by_cases hut : u = t
    · subst hut
      rw [hloc.ops_self]
      exact hprog_t
    · rw [hloc.ops_other hut, hloc.nextEvent_other hut, hloc.issued u hut]
      exact (h.program u).congr fun l => hheld u l hut

/-- A step after which the same events have passed and the same have the turn. -/
theorem Sim.same (h : Sim E s a) (hloc : Local t ops s s') (hsame : Turns.Same a a') (hgrants : Grants s' a')
    (hi : s'.iter = s.iter) (hcur : s'.curentry = s.curentry) (hlog : s'.log = s.log)
    (hpast : ∀ e, E.Good e → e = s.firstIterEntry t → (stage ops = .past ↔ stage (s.ops t) = .past))
    (hsig : ∀ u e, u ≠ t → (a'.place e = .signalled u ↔ a.place e = .signalled u))
    (hsig_t : ∀ e, a'.place e = .signalled t ↔ stage ops = .signalling e)
    (hwait : ∀ u, u ≠ t → stage (s.ops u) = .waiting → a'.place (s.firstIterEntry u) ≠ .pending)
    (hwait_t : stage ops = .waiting → a'.place (s.firstIterEntry t) ≠ .pending)
    (hret_t : stage ops = .waiting ∨ stage ops = .past → ∃ ev, s.nextEvent E t = some ev ∧ ev.ret = s'.ret t)
    (hprog_t : Disciplined (holding false (s'.issued t)) (s.nextEvent E t) (a.Held E t) ops) : Sim E s' a' := by
  have hfirst : s'.firstIterEntry t = s.firstIterEntry t := by simp only [firstIterEntry, hi]
  have hev : s'.nextEvent E t = s.nextEvent E t := by simp only [nextEvent, hi]
  refine h.of_local hloc (hsame.inOrder h.inOrder) (fun e he => h.good e (by rwa [Ne, ← hsame.idle])) hgrants (fun l hl => ?_)
    hsig hsig_t (fun e _ => hsame.passed e) (fun e het => ?_) hwait (fun hst => ?_) (fun hst => ?_)
    (fun u l _ => hsame.held) ?_ (fun l => ?_)
  · rw [hsame.granted] at hl ⊢
    rw [hcur]
    exact h.curentry l hl
  · subst het
    rw [hsame.passed, h.passed]
    refine and_congr_right fun hg => ?_
    rw [Beyond, Beyond, hi, hfirst, hloc.ops_self]
    refine or_congr_right (and_congr_right fun he => ?_)
    exact (hpast e hg he).symm
  · rw [hfirst]
    exact hwait_t hst
  · rw [hev]
    exact hret_t hst
  · rw [hev]
    exact hprog_t.congr fun l => hsame.held
  · rw [hlog, hsame.shown]
    exact h.log l

theorem Sim.peekSyncEvent {s₁ : Replay} (h : Sim E s a) (hops : s.ops t = .peekSyncEvent l :: ops)
    (hpeek : s.peekSyncEvent E t l = some s₁) : ∃ a', Sim E (s₁.setOps t ops) a' ∧ Turns.Same a a' := by
  rw [Replay.peekSyncEvent] at hpeek
  split at hpeek
  · cases hpeek
  · rename_i ev hev
    split at hpeek
    · rename_i hl
      cases hpeek
      obtain ⟨hstage, hnext⟩ := hops ▸ h.program t
      obtain ⟨a', hsame, hgrants, htaken, hother, hsig⟩ := h.signalCurrentThread t
      obtain ⟨hi, hcur, hlog, hops', hissued⟩ := signalCurrentThread_frame s (s.firstIterEntry t)
      have hself : stage (s.ops t) = .calm := by rw [hops]; rfl
      refine ⟨a', h.same (show Local t ops s _ from ⟨?_, ?_, ?_, ?_⟩) hsame
        (hgrants.congr rfl rfl rfl (fun _ => Iff.rfl) fun _ => Iff.rfl) hi hcur hlog (fun e _ _ => ?_)
        (fun u e _ => hsig u e) (fun e => ?_) (fun u hu hw => ?_) (fun _ => htaken) (fun _ => ⟨ev, hev, ?_⟩) ?_, hsame⟩
      · intro u
        simp [hops']
      · intro u hu
        exact Function.update_of_ne hu _ _
      · intro u _
        exact congrFun hi u
      · intro u _
        exact congrFun hissued u
      · simp [hstage, hself]
      · rw [hsig, h.signalled, hself, hstage]
        simp
      · rw [hother _ fun heq => hu (congrArg EventRef.thread heq)]
        exact h.waiting u hw
      · exact (Function.update_self t ev.ret s.ret).symm
      · show Disciplined (holding false ((s.signalCurrentThread (s.firstIterEntry t)).issued t)) _ _ _
        rw [hissued]
        exact hnext ev hev hl.2
    · cases hpeek

theorem Local.setOps (s : Replay) (t : Nat) (ops : List ReplayOp) : Local t ops s (s.setOps t ops) :=
  ⟨fun _ => setOps_ops s t _ ops, fun _ _ => rfl, fun _ _ => rfl, fun _ _ => rfl⟩

theorem good_first {ev : SyncEvent} (hev : s.nextEvent E t = some ev) : E.Good (s.firstIterEntry t) ↔ ev.ret = 0 := by
  constructor
  · rintro ⟨ev', hev', hr⟩
    obtain rfl : ev' = ev := Option.some.inj (hev'.symm.trans hev)
    exact hr
  · intro hr
    exact ⟨ev, hev, hr⟩

/-- A step over an operation that leaves the turns alone. -/
theorem Sim.skip (h : Sim E s a) (hpast : E.Good (s.firstIterEntry t) → (stage ops = .past ↔ stage (s.ops t) = .past))
    (hcalm : ∀ e, stage (s.ops t) ≠ .signalling e) (hcalm' : ∀ e, stage ops ≠ .signalling e) (hwait : stage ops ≠ .waiting)
    (hret : stage ops = .past → ∃ ev, s.nextEvent E t = some ev ∧ ev.ret = s.ret t)
    (hprog : Disciplined (holding false (s.issued t)) (s.nextEvent E t) (a.Held E t) ops) : Sim E (s.setOps t ops) a := by
  refine h.same (.setOps s t ops) (.refl a) (h.grants.congr rfl rfl rfl (fun _ => Iff.rfl) fun _ => Iff.rfl) rfl rfl rfl
    (fun e hg he => hpast (he ▸ hg)) (fun _ _ _ => Iff.rfl) (fun e => ?_) (fun u _ => h.waiting u)
    (fun hw => absurd hw hwait) (fun hst => ?_) hprog
  · rw [h.signalled]
    simp [hcalm e, hcalm' e]
  · rcases hst with hw | hp
    · exact absurd hw hwait
    · exact hret hp

/-- `waitSemaphore` after an event with another result than 0. -/
theorem Sim.waitSemaphore_failed (h : Sim E s a) (hops : s.ops t = .waitSemaphore :: ops) (hret : s.ret t ≠ 0) :
    Sim E (s.setOps t ops) a := by
  obtain ⟨hstage, ev, hev, hnext⟩ := hops ▸ h.program t
  have hself : stage (s.ops t) = .waiting := by rw [hops]; rfl
  obtain ⟨ev', hev', hr⟩ := h.ret t (.inl hself)
  obtain rfl : ev' = ev := Option.some.inj (hev'.symm.trans hev)
  refine h.skip (fun hg => ?_) (by simp [hself]) (by simp [hstage]) (by simp [hstage]) (fun _ => ⟨ev', hev, hr⟩) ?_
  · exact absurd (hr.symm.trans ((good_first hev).mp hg)) hret
  · refine hnext.congr fun l => ?_
    simp [hr, hret]

theorem Sim.status (h : Sim E s a) (status : Nat → ThreadStatus) (restarted : Nat → Bool) :
    Sim E { s with status := status, restarted := restarted } a :=
  ⟨h.inOrder, h.good, h.grants.congr rfl rfl rfl (fun _ => Iff.rfl) fun _ => Iff.rfl, h.curentry, h.signalled,
    h.passed, h.waiting, h.ret, h.program, h.log⟩

theorem Sim.wakeupThread {child : Nat} (h : Sim E s a) (status : Nat → ThreadStatus)
    (hops : s.ops t = .wakeupThread child :: ops) : Sim E ({ s with status := status }.setOps t ops) a := by
  obtain ⟨hstage, hnext⟩ := hops ▸ h.program t
  have hself : stage (s.ops t) = .past := by rw [hops]; rfl
  have hs := h.skip (fun _ => by rw [hstage, hself]) (by simp [hself]) (by simp [hstage]) (by simp [hstage])
    (fun _ => h.ret t (.inr hself)) hnext
  exact hs.status status s.restarted

/-- The thread takes the turn of its next event. -/
theorem Sim.waitSemaphore (h : Sim E s a) (hE : E.Listed) (hops : s.ops t = .waitSemaphore :: ops) (hret : s.ret t = 0)
    (hsema : 0 < s.sema t) : Sim E
      (({ s with sema := Function.update s.sema t (s.sema t - 1) }.addLog (.pass (s.firstIterEntry t))).setOps t ops)
      (a.move (s.firstIterEntry t) .passed) := by
  obtain ⟨hstage, ev, hev, hnext⟩ := hops ▸ h.program t
  have hself : stage (s.ops t) = .waiting := by rw [hops]; rfl
  obtain ⟨ev', hev', hr⟩ := h.ret t (.inl hself)
  obtain rfl : ev' = ev := Option.some.inj (hev'.symm.trans hev)
  have hready : a.place (s.firstIterEntry t) = .ready := by
    by_contra hne
    rw [h.grants.sema, if_neg hne] at hsema
    omega
  -- The event stands on its list where the turn is.
  obtain ⟨p, hp⟩ : ∃ p : Nat, (E.list ev'.eventlist)[p]? = some (s.firstIterEntry t) :=
    List.getElem?_of_mem (hE.listed t _ ev' hev)
  have hpos := h.inOrder.position hp (by simp [hready]) (by simp [hready])
  have hheld : ∀ u l, (a.move (s.firstIterEntry t) .passed).Held E u l ↔
      (t = u ∧ l = ev'.eventlist) ∨ a.Held E u l := fun u l => Turns.held_pass hE hp hpos
  refine h.of_local (show Local t ops s _ from ⟨fun u => setOps_ops _ _ _ _, fun _ _ => rfl, fun _ _ => rfl, fun _ _ => rfl⟩)
    (h.inOrder.move (by simp [hready]) (by simp [hready]) (by decide)) (fun e he => ?_) (h.grants.waitSemaphore hready |>.congr
      rfl rfl rfl (fun _ => Iff.rfl) fun _ => Iff.rfl) h.curentry (fun u e _ => ?_) (fun e => ?_) (fun e he => ?_)
    (fun e he => ?_) (fun u hu hw => ?_) (fun hw => absurd (hw.symm.trans hstage) (by decide)) (fun _ => ⟨ev', hev, hr⟩)
    (fun u l hu => ?_) ?_ (fun l => ?_)
  · by_cases heq : e = s.firstIterEntry t
    · rw [heq]
      exact (good_first hev).mpr (hr.trans hret)
    · rw [Turns.move_place, if_neg heq] at he
      exact h.good e he
  · by_cases heq : e = s.firstIterEntry t <;> simp [heq, hready]
  · have hsig := h.signalled t e
    by_cases heq : e = s.firstIterEntry t
    · simp [heq, hstage]
    · simp [heq, hstage, hsig, hself]
  · have heq : e ≠ s.firstIterEntry t := fun heq => he (by rw [heq]; rfl)
    simp [heq]
  · subst he
    have hbeyond : (({ s with sema := Function.update s.sema e.thread (s.sema e.thread - 1) }.addLog
        (.pass (s.firstIterEntry e.thread))).setOps e.thread ops).Beyond e ↔
        e.index < s.iter e.thread ∨ e = s.firstIterEntry e.thread := by
      rw [Beyond, setOps_ops, if_pos rfl, hstage]
      simp [firstIterEntry, addLog, Replay.setOps]
    rw [hbeyond]
    by_cases heq : e = s.firstIterEntry e.thread
    · have hg : E.Good e := by
        rw [heq]
        exact (good_first hev).mpr (hr.trans hret)
      rw [Turns.move_place, if_pos heq]
      simp [hg, ← heq]
    · rw [Turns.move_place, if_neg heq, h.passed, Beyond, hself]
      simp [heq]
  · have hne : s.firstIterEntry u ≠ s.firstIterEntry t := fun heq => hu (congrArg EventRef.thread heq)
    rw [Turns.move_place, if_neg hne]
    exact h.waiting u hw
  · rw [hheld]
    simp [Ne.symm hu]
  · refine hnext.congr fun l => ?_
    rw [hheld]
    simp [hr, hret]
  · show (s.log ++ [Passage.pass (s.firstIterEntry t)]).filter (·.on E l) = _
    rw [List.filter_append, h.log]
    by_cases hl : l = ev'.eventlist
    · subst hl
      have hon : Passage.on E ev'.eventlist (.pass (s.firstIterEntry t)) = true := by
        simpa [Passage.on] using List.mem_of_getElem? hp
      rw [List.filter_singleton, hon, Turns.shown_pass hp hpos (by simp [hready])]
      rfl
    · have hmem : ∀ e ∈ E.list l, e ≠ s.firstIterEntry t := by
        rintro e he rfl
        obtain ⟨p', hp'⟩ := List.getElem?_of_mem he
        exact hl (hE.unique hp' hp).1
      have hon : Passage.on E l (.pass (s.firstIterEntry t)) = false := by
        simpa [Passage.on] using fun he => hmem _ he rfl
      rw [List.filter_singleton, hon]
      simp only [cond_false, List.append_nil]
      exact (Turns.shown_congr (by simp) fun e he => by simp [hmem e he]).symm

theorem Sim.advanceThreadSyncList (h : Sim E s a) (hops : s.ops t = .advanceThreadSyncList :: ops) :
    Sim E ((s.advanceThreadSyncList t).setOps t ops) a := by
  obtain ⟨hstage, hcur, hnext⟩ := hops ▸ h.program t
  have hself : stage (s.ops t) = .past := by rw [hops]; rfl
  have hready : a.place (s.firstIterEntry t) ≠ .ready := by
    intro hr
    have hpassed := (h.passed _).mpr ⟨h.good (s.firstIterEntry t) (by simp [hr]), .inr ⟨rfl, hself⟩⟩
    rw [hr] at hpassed
    cases hpassed
  refine h.of_local (show Local t ops s _ from ⟨fun u => setOps_ops _ _ _ _, fun _ _ => rfl, fun u hu => ?_, fun _ _ => rfl⟩)
    h.inOrder h.good (h.grants.advanceThreadSyncList hready |>.congr rfl rfl rfl (fun _ => Iff.rfl) fun _ => Iff.rfl)
    h.curentry (fun _ _ _ => Iff.rfl) (fun e => ?_) (fun _ _ => Iff.rfl) (fun e he => ?_) (fun u _ => h.waiting u)
    (fun hw => absurd (hw.symm.trans hstage) (by decide)) (fun hst => ?_) (fun _ _ _ => Iff.rfl) (hnext _) h.log
  · exact Function.update_of_ne hu _ _
  · rw [h.signalled, hself, hstage]
    simp
  · subst he
    rw [h.passed, Beyond, Beyond, setOps_ops, if_pos rfl, hself, hstage]
    refine and_congr_right fun _ => ?_
    obtain ⟨t, i⟩ := e
    simp [firstIterEntry, Replay.advanceThreadSyncList, Replay.setOps]
    omega
  · rw [hstage] at hst
    simp at hst

theorem advanceSyncEvent_eq {k : Nat} (h : s.curentry l = some k) : s.advanceSyncEvent E l =
    some ((E.list l)[k + 1]?, s.setCurentry l (if k + 1 < (E.list l).length then some (k + 1) else none)) := by
  rw [Replay.advanceSyncEvent, h]
  dsimp only
  split
  · rfl
  · rw [List.getElem?_eq_none (by omega)]

/-- The thread gives the turn that it holds to the next event of the list. -/
theorem Sim.advanceSyncEvent {s₁ : Replay} {next : Option EventRef} (h : Sim E s a) (hE : E.Listed)
    (hops : s.ops t = .advanceSyncEvent l :: ops) (hadv : s.advanceSyncEvent E l = some (next, s₁))
    (hgood : ∀ e, next = some e → E.Good e) :
    Sim E ((s₁.addLog (.release t l)).setOps t (next.toList.map .signalNextThread ++ ops)) (a.grant E l (.signalled t)) := by
  obtain ⟨hstage, ⟨p, e, he, hp, ht, hpassed⟩, hprog⟩ := hops ▸ h.program t
  have hself : stage (s.ops t) = .calm := by rw [hops]; rfl
  obtain ⟨hnext, rfl⟩ : next = (E.list l)[a.granted l]? ∧
      s₁ = s.setCurentry l (if p + 1 < (E.list l).length then some (p + 1) else none) := by
    rw [advanceSyncEvent_eq (h.curentry_eq he hp), hp] at hadv
    cases hadv
    exact ⟨rfl, by rw [hp]⟩
  have hplace : ∀ e', (a.grant E l (.signalled t)).place e' = if next = some e' then .signalled t else a.place e' := by
    intro e'
    rw [hnext]
    rfl
  have hheld : ∀ u l', (a.grant E l (.signalled t)).Held E u l' ↔ l' ≠ l ∧ a.Held E u l' :=
    fun u l' => Turns.held_grant hE (by simp)
  have hstage' : stage (next.toList.map ReplayOp.signalNextThread ++ ops) = next.elim .calm .signalling := by
    cases next with
    | none => exact hstage
    | some e' => rfl
  refine h.of_local (show Local t (next.toList.map .signalNextThread ++ ops) s _ from
      ⟨fun u => setOps_ops _ _ _ _, fun _ _ => rfl, fun _ _ => rfl, fun _ _ => rfl⟩)
    (h.inOrder.grant hE (by simp) fun p' e' he' hp' => ?_) (fun e' he' => ?_) (h.grants.congr rfl rfl rfl (fun e' => ?_)
      fun e' => ?_) (fun l' hl' => ?_) (fun u e' hu => ?_) (fun e' => ?_) (fun e' _ => ?_) (fun e' he' => ?_) (fun u _ hw => ?_)
    (fun hw => ?_) (fun hst => ?_) (fun u l' hu => ?_) ?_ (fun l' => ?_)
  · obtain rfl : p' = p := by omega
    rw [he] at he'
    cases he'
    exact hpassed
  · rw [hplace] at he'
    split at he'
    · exact hgood e' ‹_›
    · exact h.good e' he'
  · exact h.inOrder.place_grant (by simp) (by simp)
  · exact h.inOrder.place_grant (by simp) (by simp)
  · rw [Turns.grant_granted]
    show Function.update s.curentry l _ l' = _
    by_cases heq : l' = l
    · subst heq
      rw [Function.update_self, if_pos rfl, ← hp]
      rfl
    · rw [Turns.grant_granted, if_neg heq] at hl'
      rw [Function.update_of_ne heq, if_neg heq]
      exact h.curentry l' hl'
  · exact h.inOrder.place_grant (by simpa using hu) (by simp)
  · rw [hplace, hstage']
    have hold := h.signalled t e'
    rw [hself] at hold
    cases next with
    | none => simpa using hold
    | some e'' =>
      by_cases heq : e'' = e'
      · simp [heq]
      · simpa [heq] using hold
  · exact h.inOrder.place_grant (by simp) (by simp)
  · subst he'
    have hpast : stage (next.toList.map ReplayOp.signalNextThread ++ ops) ≠ .past := by
      rw [hstage']
      cases next <;> simp
    have hbeyond : (((s.setCurentry l (if p + 1 < (E.list l).length then some (p + 1) else none)).addLog
        (.release e'.thread l)).setOps e'.thread (next.toList.map .signalNextThread ++ ops)).Beyond e' ↔ s.Beyond e' := by
      rw [Beyond, Beyond, setOps_ops, if_pos rfl, hself]
      simp only [hpast, and_false, or_false, reduceCtorEq]
      rfl
    rw [hbeyond, h.inOrder.place_grant (by simp) (by simp), h.passed]
  · rw [hplace]
    split
    · simp
    · exact h.waiting u hw
  · rw [hstage'] at hw
    cases next <;> cases hw
  · rw [hstage'] at hst
    cases next <;> simp at hst
  · rw [hheld]
    refine and_iff_right_of_imp fun hu' hl => hu ?_
    subst hl
    exact hu'.unique ⟨p, e, he, hp, ht, hpassed⟩
  · have hops' := hprog.congr (hheld t)
    cases next with
    | none => exact hops'
    | some e' => exact ⟨hstage, hops'⟩
  · show (s.log ++ [Passage.release t l]).filter (·.on E l') = _
    rw [List.filter_append, h.log, List.filter_singleton]
    by_cases heq : l' = l
    · subst heq
      rw [Turns.shown_grant (x := .signalled t) he hp hpassed (by simp), ht]
      simp [Passage.on]
    · have hcongr : (a.grant E l (.signalled t)).shown E l' = a.shown E l' :=
        Turns.shown_congr (by rw [Turns.grant_granted, if_neg heq]) fun e' _ => h.inOrder.place_grant (by simp) (by simp)
      simp [hcongr, Passage.on, Ne.symm heq]

theorem Sim.signalNextThread (h : Sim E s a) (hops : s.ops t = .signalNextThread e :: ops) :
    ∃ a', Sim E ((s.signalNextThread e).setOps t ops) a' ∧ Turns.Same a a' := by
  obtain ⟨hstage, hnext⟩ := hops ▸ h.program t
  have hself : stage (s.ops t) = .signalling e := by rw [hops]; rfl
  have hplace : a.place e = .signalled t := (h.signalled t e).mpr hself
  obtain ⟨hi, hcur, hlog, hops', hissued, hret⟩ := signalNextThread_frame s e
  have hsame : Turns.Same a (a.move e (if e = s.firstIterEntry e.thread then .ready else .pending)) := by
    refine .move (by simp [hplace]) (by simp [hplace]) ?_ ?_ <;> split <;> simp
  refine ⟨_, h.same (show Local t ops s _ from ⟨fun u => by simp [hops'], fun u _ => congrFun hret u,
    fun u _ => congrFun hi u, fun u _ => congrFun hissued u⟩) hsame ((h.grants.signalNextThread (by simp [hplace]) (by simp [hplace])).congr rfl rfl rfl
      (fun _ => Iff.rfl) fun _ => Iff.rfl) hi hcur hlog (fun e' _ _ => ?_) (fun u e' hu => ?_) (fun e' => ?_) (fun u _ hw => ?_)
    (fun hw => ?_) (fun hst => ?_) ?_, hsame⟩
  · simp [hself, hstage]
  · rw [Turns.move_place]
    split
    · rename_i heq
      rw [heq, hplace]
      split <;> simp [Ne.symm hu]
    · rfl
  · rw [Turns.move_place, hstage]
    have hold := h.signalled t e'
    rw [hself] at hold
    by_cases heq : e' = e
    · subst heq
      rw [if_pos rfl]
      split <;> simp
    · rw [if_neg heq, hold]
      simp [Ne.symm heq]
  · rw [Turns.move_place]
    by_cases heq : s.firstIterEntry u = e
    · rw [if_pos heq, if_pos (by rw [← heq]; rfl)]
      decide
    · rw [if_neg heq]
      exact h.waiting u hw
  · rw [hstage] at hw
    cases hw
  · rw [hstage] at hst
    simp at hst
  · show Disciplined (holding false ((s.signalNextThread e).issued t)) _ _ _
    rw [hissued]
    exact hnext

/-- A call is issued; `legal` says that the caller holds what it releases. -/
theorem Sim.issue {c : SyncCall} (h : Sim E s a) (hops : s.ops t = []) (hlegal : s.legal E t c = true)
    (hsaved : ∀ m, c.releases = some m → E.saved t m = false)
    (hret : ∀ ev, s.nextEvent E t = some ev → (∃ m, c = .condWait m) ∨ (∃ u, c = .threadCreate u) → ev.ret = 0) :
    Sim E ((s.addIssued t (c, (s.nextEvent E t).all fun ev => ev.ret == 0)).setOps t c.replay) a := by
  have hprog := hops ▸ h.program t
  have hself : stage (s.ops t) = .calm := by rw [hops]; rfl
  have hstage : stage c.replay = .calm := by cases c <;> rfl
  have hrel : ∀ m, c.releases = some m → holding false (s.issued t) m = true := by
    intro m hm
    have hm' := hlegal
    rw [legal, hm, Option.all_some, hsaved m hm] at hm'
    exact hm'
  refine h.same (show Local t c.replay s _ from ⟨fun u => setOps_ops _ _ _ _, fun _ _ => rfl, fun _ _ => rfl, fun u hu => ?_⟩)
    (.refl a) (h.grants.congr rfl rfl rfl (fun _ => Iff.rfl) fun _ => Iff.rfl) rfl rfl rfl (fun _ _ _ => by rw [hstage, hself])
    (fun _ _ _ => Iff.rfl) (fun e => ?_) (fun u _ => h.waiting u) (fun hw => absurd (hw.symm.trans hstage) (by decide))
    (fun hst => ?_) ?_
  · exact Function.update_of_ne hu _ _
  · rw [h.signalled, hself, hstage]
  · rw [hstage] at hst
    simp at hst
  · have := SyncCall.replay_disciplined hprog hrel hret
    simpa [Replay.setOps, addIssued] using this

/-- What a step needs of the recorded epoch: a call releases a mutex that was taken after the context was saved, `cond_wait`
    and `thread_create` find events with the result 0, and so does the turn that is given on. -/
def Admits (E : Epoch) (s : Replay) : Act → Prop
  | .restart _ => True
  | .issue t c => (∀ m, c.releases = some m → E.saved t m = false) ∧
    ∀ ev, s.nextEvent E t = some ev → (∃ m, c = .condWait m) ∨ (∃ u, c = .threadCreate u) → ev.ret = 0
  | .go t => ∀ l ops k e, s.ops t = .advanceSyncEvent l :: ops → s.curentry l = some k → (E.list l)[k + 1]? = some e →
    E.Good e

/-- What an operation does to the turns. -/
def Moved (s : Replay) (E : Epoch) (t : Nat) (a a' : Turns) : ReplayOp → Prop
  | .waitSemaphore => if s.ret t = 0 then a' = a.move (s.firstIterEntry t) .passed else a' = a
  | .advanceSyncEvent l => a' = a.grant E l (.signalled t)
  | _ => Turns.Same a a'

theorem Sim.go (h : Sim E s a) (hE : E.Listed) (hok : s.Admits E (.go t)) (hgo : s.go E t = some s') :
    ∃ a' op ops, Sim E s' a' ∧ s.ops t = op :: ops ∧ s.Moved E t a a' op := by
  rw [Replay.go] at hgo
  split at hgo
  · cases hgo
  · rename_i l ops hops
    obtain ⟨s₁, hpeek, rfl⟩ := Option.map_eq_some_iff.mp hgo
    obtain ⟨a', h', hsame⟩ := h.peekSyncEvent hops hpeek
    exact ⟨a', _, _, h', hops, hsame⟩
  · rename_i ops hops
    split at hgo
    · rename_i hret
      cases hgo
      exact ⟨a, _, _, h.waitSemaphore_failed hops hret, hops, by rw [Moved, if_neg hret]⟩
    · rename_i hret
      split at hgo
      · rename_i hsema
        cases hgo
        exact ⟨_, _, _, h.waitSemaphore hE hops (not_not.mp hret) hsema, hops, by rw [Moved, if_pos (not_not.mp hret)]⟩
      · cases hgo
  · rename_i child ops hops
    split at hgo
    · cases hgo
      exact ⟨a, _, _, h.wakeupThread s.status hops, hops, .refl a⟩
    · cases hgo
      exact ⟨a, _, _, h.wakeupThread _ hops, hops, .refl a⟩
  · rename_i ops hops
    cases hgo
    exact ⟨a, _, _, h.advanceThreadSyncList hops, hops, .refl a⟩
  · rename_i l ops hops
    obtain ⟨⟨next, s₁⟩, hadv, rfl⟩ := Option.map_eq_some_iff.mp hgo
    refine ⟨_, _, _, h.advanceSyncEvent hE hops hadv fun e he => ?_, hops, rfl⟩
    rw [Replay.advanceSyncEvent] at hadv
    split at hadv
    · cases hadv
    · rename_i k hk
      split at hadv
      · cases hadv
        exact hok l ops k e hops hk he
      · cases hadv
        cases he
  · rename_i e ops hops
    cases hgo
    obtain ⟨a', h', hsame⟩ := h.signalNextThread hops
    exact ⟨a', _, _, h', hops, hsame⟩

theorem Sim.restart (h : Sim E s a) (hx : s.exec E (.restart t) = some s') : Sim E s' a := by
  rw [Replay.exec] at hx
  split at hx
  · cases hx
    exact h.status _ _
  · cases hx

theorem Sim.exec {act : Act} (h : Sim E s a) (hE : E.Listed) (hok : s.Admits E act) (hx : s.exec E act = some s') :
    ∃ a', Sim E s' a' := by
  cases act with
  | restart t => exact ⟨a, h.restart hx⟩
  | issue t c =>
    rw [Replay.exec] at hx
    split at hx
    · rename_i hg
      obtain ⟨-, hops, hlegal⟩ := hg
      cases hx
      exact ⟨a, h.issue hops hlegal hok.1 hok.2⟩
    · cases hx
  | go t =>
    rw [Replay.exec] at hx
    split at hx
    · obtain ⟨a', -, -, h', -⟩ := h.go hE hok hx
      exact ⟨a', h'⟩
    · cases hx

/-- The turns before `prepareRollback`. -/
def noTurns : Turns := ⟨fun _ => 0, fun _ => .idle⟩

theorem sim_atStart (E : Epoch) (committer : Nat) : Sim E (atStart E committer) noTurns := by
  have hheld : ∀ t l, ¬ noTurns.Held E t l := by
    rintro t l ⟨p, e, -, hp, -⟩
    simp [noTurns] at hp
  constructor
  · constructor <;> simp [noTurns]
  · simp [noTurns]
  · constructor <;> simp [noTurns, atStart]
  · simp [noTurns]
  · simp [noTurns, atStart, stage]
  · simp [noTurns, atStart, Beyond, stage]
  · simp [noTurns]
  · simp [atStart, stage]
  · intro t
    refine ⟨fun m => ?_, hheld t _⟩
    simp [hheld, holding, atStart]
  · intro l
    simp [atStart, Turns.shown, noTurns]

/-- `prepareRollback` gives the first event of a list its turn. -/
theorem Sim.prepareEventListRollback (h : Sim E s a) (hE : E.Listed) (hl : a.granted l = 0)
    (hgood : ∀ e, (E.list l).head? = some e → E.Good e) :
    ∃ a', Sim E (s.prepareEventListRollback E l) a' ∧ (E.list l ≠ [] → 0 < a'.granted l) ∧
      ∀ l', l' ≠ l → a'.granted l' = a.granted l' := by
  rw [Replay.prepareEventListRollback]
  split
  · rename_i hnil
    exact ⟨a, h, fun hne => absurd (List.head?_eq_none_iff.mp hnil) hne, fun _ _ => rfl⟩
  · rename_i e hhead
    have hfirst : (E.list l)[a.granted l]? = some e := by
      rw [hl, ← List.head?_eq_getElem?]
      exact hhead
    have hidle : a.place e = .idle := h.inOrder.after l _ e hfirst (Nat.le_refl _)
    have hnone : ∀ t, ¬ a.Held E t l := by
      rintro t ⟨p, e, -, hp, -⟩
      omega
    obtain ⟨hi, hcur, hlog, hops, hissued, hret⟩ := signalNextThread_frame (s.setCurentry l (some 0)) e
    have hold : Grants (s.setCurentry l (some 0)) a := h.grants.congr rfl rfl rfl (fun _ => Iff.rfl) fun _ => Iff.rfl
    have hgrants := hold.signalNextThread (e := e) (by simp [hidle]) (by simp [hidle])
    have hset : (s.setCurentry l (some 0)).firstIterEntry = s.firstIterEntry := rfl
    -- The place that the turn has got.
    generalize hx : (if e = (s.setCurentry l (some 0)).firstIterEntry e.thread then Place.ready else .pending) = x at hgrants
    have hx' : x = .ready ∨ x = .pending := by
      rw [← hx]
      split <;> simp
    have hplace : ∀ e', (a.grant E l x).place e' = if e = e' then x else a.place e' := by
      intro e'
      simp [Turns.grant, hfirst]
    have hpassed : ∀ e', (a.grant E l x).place e' = .passed ↔ a.place e' = .passed := by
      intro e'
      refine h.inOrder.place_grant ?_ (by simp)
      rcases hx' with rfl | rfl <;> simp
    refine ⟨a.grant E l x, ⟨h.inOrder.grant hE ?_ ?_, ?_, ?_, ?_, ?_, ?_, ?_, ?_, ?_, ?_⟩, fun _ => ?_, fun l' hl' => ?_⟩
    · rcases hx' with rfl | rfl <;> simp
    · intro p e' _ hp
      omega
    · intro e' he'
      rw [hplace] at he'
      split at he'
      · rename_i heq
        exact heq ▸ hgood e hhead
      · exact h.good e' he'
    · refine hgrants.congr rfl rfl rfl (fun e' => ?_) fun e' => ?_
      · rw [hplace, Turns.move_place]
        by_cases heq : e = e' <;> simp [heq, eq_comm (a := e')]
      · rw [hplace, Turns.move_place]
        by_cases heq : e = e' <;> simp [heq, eq_comm (a := e')]
    · intro l' hl'
      rw [hcur, Turns.grant_granted]
      rw [Turns.grant_granted] at hl'
      by_cases heq : l' = l
      · subst heq
        have hlen : 0 < (E.list l').length := by
          rw [hl] at hfirst
          exact (List.getElem?_eq_some_iff.mp hfirst).1
        rw [if_pos rfl, hl, if_pos (by omega)]
        exact Function.update_self _ _ _
      · rw [if_neg heq] at hl' ⊢
        exact (Function.update_of_ne heq _ _).trans (h.curentry l' hl')
    · intro t e'
      rw [hops, h.inOrder.place_grant (by rcases hx' with rfl | rfl <;> simp) (by simp)]
      exact h.signalled t e'
    · intro e'
      rw [hpassed, h.passed, Beyond, Beyond, hi, hops]
      simp only [firstIterEntry, hi]
      rfl
    · intro t ht
      have hst : stage (s.ops t) = .waiting := by
        rw [hops] at ht
        exact ht
      have hfst : ((s.setCurentry l (some 0)).signalNextThread e).firstIterEntry t = s.firstIterEntry t := by
        simp only [firstIterEntry, hi]
        rfl
      rw [hfst, hplace]
      split
      · rename_i heq
        rw [← hx, if_pos (by rw [hset, heq]; rfl)]
        decide
      · exact h.waiting t hst
    · intro t ht
      rw [hops] at ht
      simp only [nextEvent, hi, hret]
      exact h.ret t ht
    · intro t
      rw [hops, hissued]
      simp only [nextEvent, hi]
      refine (h.program t).congr fun l' => ?_
      rw [Turns.held_grant hE (by rcases hx' with rfl | rfl <;> simp)]
      refine and_iff_right_of_imp ?_
      rintro hheld rfl
      exact hnone t hheld
    · intro l'
      rw [hlog]
      refine (h.log l').trans ?_
      by_cases heq : l' = l
      · subst heq
        have hxp : x ≠ .passed := by rcases hx' with rfl | rfl <;> simp
        rw [hl] at hfirst
        simp [Turns.shown, hl, Turns.grant_granted, hplace, hfirst, hxp]
      · exact (Turns.shown_congr (by rw [Turns.grant_granted, if_neg heq]) fun e' _ => hpassed e').symm
    · rw [Turns.grant_granted, if_pos rfl]
      omega
    · rw [Turns.grant_granted, if_neg hl']

theorem Sim.foldl_prepare (hE : E.Listed) (hgood : ∀ l e, (E.list l).head? = some e → E.Good e) (ls : List SyncVar)
    (hnodup : ls.Nodup) (h : Sim E s a) (hl : ∀ l ∈ ls, a.granted l = 0) :
    ∃ a', Sim E (ls.foldl (Replay.prepareEventListRollback E) s) a' ∧
      (∀ l, E.list l ≠ [] → l ∈ ls ∨ 0 < a.granted l → 0 < a'.granted l) := by
  induction ls generalizing s a with
  | nil => exact ⟨a, h, fun l _ hgr => hgr.resolve_left List.not_mem_nil⟩
  | cons l ls ih =>
    obtain ⟨hnot, hnodup⟩ := List.nodup_cons.mp hnodup
    obtain ⟨a₁, h₁, hnew, hold⟩ := h.prepareEventListRollback hE (hl l List.mem_cons_self) (hgood l)
    have hls : ∀ l' ∈ ls, l' ≠ l := by
      rintro l' hl' rfl
      exact hnot hl'
    obtain ⟨a₂, h₂, hgr⟩ := ih hnodup h₁ fun l' hl' => by
      rw [hold l' (hls l' hl')]
      exact hl l' (List.mem_cons_of_mem l hl')
    refine ⟨a₂, h₂, fun l' hne hl' => hgr l' hne ?_⟩
    by_cases heq : l' = l
    · subst heq
      exact .inr (hnew hne)
    · rcases hl' with hmem | hpos
      · exact .inl ((List.mem_cons.mp hmem).resolve_left heq)
      · rw [← hold l' heq] at hpos
        exact .inr hpos

theorem sim_prepareRollback (hE : E.Listed) (hgood : ∀ l e, (E.list l).head? = some e → E.Good e) :
    ∃ a, Sim E (prepareRollback E committer) a ∧ ∀ l, E.list l ≠ [] → l ∈ E.active.map SyncVar.mutex ++ [SyncVar.spawning] →
      0 < a.granted l := by
  have hnodup : (E.active.map SyncVar.mutex ++ [SyncVar.spawning]).Nodup := by
    refine List.nodup_append.mpr ⟨?_, List.nodup_singleton _, ?_⟩
    · exact hE.active_nodup.map fun m m' hm => by simpa using hm
    · simp
  obtain ⟨a, h, hgr⟩ := (sim_atStart E committer).foldl_prepare hE hgood _ hnodup fun _ _ => rfl
  refine ⟨a, ?_, fun l hne hl => hgr l hne (.inl hl)⟩
  exact h.status _ _

/-- An epoch in which every event has the result 0, and that began with no mutex held. -/
structure Plain (E : Epoch) : Prop where
  startOwner : ∀ m, E.startOwner m = none
  ret : ∀ t, ∀ ev ∈ E.syncevents t, ev.ret = 0

theorem Plain.good (hp : Plain E) (hE : E.Listed) (he : e ∈ E.list l) : E.Good e := by
  obtain ⟨ev, hev, -⟩ := hE.ref l e he
  exact ⟨ev, hev, hp.ret e.thread ev (List.mem_of_getElem? hev)⟩

theorem Plain.admits {act : Act} (hp : Plain E) (hE : Reachable Epoch.system E) (hf : E.SavedFree committer)
    (hs : Sent E committer s) (hx : s.exec E act = some s') : s.Admits E act := by
  cases act with
  | restart t => trivial
  | issue t c =>
    rw [Replay.exec] at hx
    split at hx
    · rename_i hg
      refine ⟨fun m _ => ?_, fun ev hev _ => hp.ret t ev (List.mem_of_getElem? hev)⟩
      refine hf.saved_eq_false (Epoch.reachable_placed hE) (hs.back t hg.1) ?_
      rw [hp.startOwner]
      exact (Option.some_ne_none t).symm
    · cases hx
  | go t =>
    intro l ops k e _ _ he
    exact hp.good (Epoch.reachable_listed hE) (List.mem_of_getElem? he)

theorem Plain.sim (hp : Plain E) (hE : Reachable Epoch.system E) (hf : E.SavedFree committer)
    (h : Reachable (system E committer) s) : ∃ a, Sim E s a := by
  have hl := Epoch.reachable_listed hE
  induction h with
  | init hs =>
    obtain ⟨-, rfl⟩ := hs
    obtain ⟨a, ha, -⟩ := sim_prepareRollback hl fun l e he => hp.good hl (List.mem_of_head? he)
    exact ⟨a, ha⟩
  | step act hreach hx ih =>
    obtain ⟨a, ha⟩ := ih
    exact ha.exec hl (hp.admits hE hf (reachable_sent hreach) hx) hx

theorem Sim.mem_log (h : Sim E s a) (he : e ∈ E.list l) : .pass e ∈ s.log ↔ a.place e = .passed := by
  have hon : .pass e ∈ s.log ↔ .pass e ∈ s.log.filter (·.on E l) := by simp [Passage.on, he]
  rw [hon, h.log]
  exact Turns.mem_shown h.inOrder he

/-- The passages on every list are in the order of its events, each event with its release before the next one, and the
    semaphores are 0 or 1. -/
structure InOrder (E : Epoch) (s : Replay) : Prop where
  passages : ∀ l, s.log.filter (·.on E l) <+: (E.list l).flatMap fun e => [.pass e, .release e.thread l]
  passed : ∀ l, ∀ e ∈ E.list l, .pass e ∈ s.log ↔ s.Beyond e
  sema : ∀ t, s.sema t ≤ 1

/-- Thread 0 locks and unlocks a mutex and ends, then thread 1 locks it. -/
def twoLocks : Epoch :=
  ([.mutexLock 0 5, .record 0, .mutexUnlock 0 5, .finish 0, .mutexLock 1 5, .record 1].foldlM Epoch.exec Epoch.start).getD Epoch.start

theorem twoLocks_reachable : Reachable Epoch.system twoLocks :=
  Epoch.reachable_run [.mutexLock 0 5, .record 0, .mutexUnlock 0 5, .finish 0, .mutexLock 1 5, .record 1]
    (.init Epoch.start_began) rfl

theorem twoLocks_ended : twoLocks.Ended := by
  refine ⟨fun t => ?_, fun t u c ht _ => ?_⟩
  · rcases t with _ | _ | t <;> rfl
  · rcases t with _ | _ | t <;> cases ht

theorem twoLocks_plain : Plain twoLocks := by
  refine ⟨fun _ => rfl, fun t ev hev => ?_⟩
  rcases t with _ | _ | t
  · cases List.mem_singleton.mp (show ev ∈ [⟨0, .mutex 5, 0⟩] from hev)
    rfl
  · cases List.mem_singleton.mp (show ev ∈ [⟨1, .mutex 5, 0⟩] from hev)
    rfl
  · cases show ev ∈ [] from hev

theorem twoLocks_savedFree : twoLocks.SavedFree 1 := fun _ hst => nomatch hst

/-- Thread 1 holds mutex 7 when an epoch begins, unlocks it and goes to sleep in a `cond_wait`. -/
def unlocksAndSleeps : Epoch :=
  ([.mutexUnlock 1 7, .mutexLock 1 5, .record 1, .condWait 1 5 6].foldlM Epoch.exec
    (([.mutexLock 1 7, .record 1].foldlM Epoch.exec Epoch.start).getD Epoch.start).epochBegin).getD Epoch.start

/-- In the next epoch threads 0 and 2 lock mutex 7, while thread 1 sleeps. -/
def locksBySleeper : Epoch :=
  ([.mutexLock 0 7, .record 0, .mutexUnlock 0 7, .mutexLock 2 7, .record 2].foldlM Epoch.exec
    unlocksAndSleeps.epochBegin).getD Epoch.start

theorem locksBySleeper_reachable : Reachable Epoch.system locksBySleeper := by
  have hlocked : Reachable Epoch.system (([.mutexLock 1 7, .record 1].foldlM Epoch.exec Epoch.start).getD Epoch.start) :=
    Epoch.reachable_run [.mutexLock 1 7, .record 1] (.init Epoch.start_began) rfl
  have hsleeps : Reachable Epoch.system unlocksAndSleeps := by
    refine Epoch.reachable_run [.mutexUnlock 1 7, .mutexLock 1 5, .record 1, .condWait 1 5 6]
      (.step (.epochBegin 1) hlocked ⟨rfl, fun t => ?_, rfl⟩) rfl
    rcases t with _ | _ | t <;> rfl
  refine Epoch.reachable_run [.mutexLock 0 7, .record 0, .mutexUnlock 0 7, .mutexLock 2 7, .record 2]
    (.step (.epochBegin 0) hsleeps ⟨rfl, fun t => ?_, rfl⟩) rfl
  rcases t with _ | _ | t <;> rfl

/-- Thread 1 is the only one that sleeps. -/
theorem locksBySleeper_ended : locksBySleeper.Ended := by
  have hcond : locksBySleeper.cond = Function.update (fun _ => none) 1 (some 6) := rfl
  have hsleeper : ∀ t c, locksBySleeper.cond t = some c → t = 1 := by
    intro t c ht
    by_contra hne
    rw [hcond, Function.update_of_ne hne] at ht
    cases ht
  refine ⟨fun t => ?_, fun t u c ht hu => (hsleeper t c ht).trans (hsleeper u c hu).symm⟩
  rcases t with _ | _ | _ | t <;> rfl

theorem locksBySleeper_plain : Plain locksBySleeper := by
  refine ⟨fun m => ?_, fun t ev hev => ?_⟩
  · have howner : locksBySleeper.startOwner = Function.update (Function.update (Function.update (Function.update
        (fun _ => none) 7 (some 1)) 7 none) 5 (some 1)) 5 none := rfl
    rw [howner]
    simp [Function.update_apply]
  · rcases t with _ | _ | _ | t
    · cases List.mem_singleton.mp (show ev ∈ [⟨0, .mutex 7, 0⟩] from hev)
      rfl
    · cases show ev ∈ [] from hev
    · cases List.mem_singleton.mp (show ev ∈ [⟨2, .mutex 7, 0⟩] from hev)
      rfl
    · cases show ev ∈ [] from hev

end Replay

end DoubleTake
