import DoubleTake.Theorems.Releases

/-! The order in which an epoch was recorded, and that every thread's calls follow it. -/

namespace DoubleTake

open Transition

/-- The moment of each recorded event, and for each thread of the epoch the event of its `thread_create`. -/
structure Clock where
  time : EventRef → Nat
  creator : Nat → Option EventRef

/-- The clock after an event is recorded. -/
def Clock.tick (c : Clock) (e : EventRef) (now : Nat) (creator : Nat → Option EventRef) : Clock :=
  ⟨Function.update c.time e now, creator⟩

/-- The position on each list of the event with which a thread holds it. -/
abbrev Hold : Type := SyncVar → Option Nat

section
variable (E : Epoch) (c : Clock)

/-- The event comes before those that wait for what is held. -/
def Hold.Before (h : Hold) (e : EventRef) : Prop :=
  ∀ l p e', h l = some p → (E.list l)[p + 1]? = some e' → E.Good e' → c.time e < c.time e'

/-- These operations of a thread were recorded: they take what it holds and the number of its events from `h`, `i` to
    `h'`, `i'`, and each event comes before those that wait for what is held then. -/
inductive Follows (t : Nat) : Hold → Nat → List ReplayOp → Hold → Nat → Prop where
  | nil {h : Hold} {i : Nat} : Follows t h i [] h i
  | peek {h h' : Hold} {i i' : Nat} {ops : List ReplayOp} {l : SyncVar} {ev : SyncEvent} :
      (E.syncevents t)[i]? = some ev → ev.eventlist = l → Follows t h i ops h' i' →
      Follows t h i (.peekSyncEvent l :: ops) h' i'
  | wait {h h' : Hold} {i i' : Nat} {ops : List ReplayOp} {l : SyncVar} {p : Nat} :
      (E.list l)[p]? = some ⟨t, i⟩ → E.Good ⟨t, i⟩ → h.Before E c ⟨t, i⟩ →
      (∀ u, c.creator u = some ⟨t, i⟩ → ∃ rest, ops = .wakeupThread u :: rest) →
      Follows t (Function.update h l (some p)) i ops h' i' → Follows t h i (.waitSemaphore :: ops) h' i'
  | fail {h h' : Hold} {i i' : Nat} {ops : List ReplayOp} {ev : SyncEvent} :
      (E.syncevents t)[i]? = some ev → ev.ret ≠ 0 → Follows t h i ops h' i' → Follows t h i (.waitSemaphore :: ops) h' i'
  | wakeup {h h' : Hold} {i i' : Nat} {ops : List ReplayOp} {u : Nat} :
      Follows t h i ops h' i' → Follows t h i (.wakeupThread u :: ops) h' i'
  | advance {h h' : Hold} {i i' : Nat} {ops : List ReplayOp} :
      Follows t h (i + 1) ops h' i' → Follows t h i (.advanceThreadSyncList :: ops) h' i'
  | release {h h' : Hold} {i i' : Nat} {ops : List ReplayOp} {l : SyncVar} :
      h l ≠ none → Follows t (Function.update h l none) i ops h' i' → Follows t h i (.advanceSyncEvent l :: ops) h' i'
  | signal {h h' : Hold} {i i' : Nat} {ops : List ReplayOp} {e : EventRef} :
      Follows t h i ops h' i' → Follows t h i (.signalNextThread e :: ops) h' i'

end

variable {E E' : Epoch} {c c' : Clock} {t : Nat} {h h' h'' : Hold} {i i' i'' : Nat} {ops ops' : List ReplayOp}

theorem Follows.append (hf : Follows E c t h i ops h' i') (hf' : Follows E c t h' i' ops' h'' i'') :
    Follows E c t h i (ops ++ ops') h'' i'' := by
  induction hf with
  | nil => exact hf'
  | peek hev hl _ ih => exact .peek hev hl (ih hf')
  | wait hpos hgood hbefore hchild _ ih =>
    refine .wait hpos hgood hbefore (fun u hu => ?_) (ih hf')
    obtain ⟨rest, rfl⟩ := hchild u hu
    exact ⟨rest ++ ops', rfl⟩
  | fail hev hret _ ih => exact .fail hev hret (ih hf')
  | wakeup _ ih => exact .wakeup (ih hf')
  | advance _ ih => exact .advance (ih hf')
  | release hl _ ih => exact .release hl (ih hf')
  | signal _ ih => exact .signal (ih hf')

/-- What has been recorded stays so, and what is recorded later has a later moment. -/
structure Later (E : Epoch) (c : Clock) (E' : Epoch) (c' : Clock) : Prop where
  pool : ∀ t (i : Nat) ev, (E.syncevents t)[i]? = some ev → (E'.syncevents t)[i]? = some ev
  list : ∀ l (p : Nat) e, (E.list l)[p]? = some e → (E'.list l)[p]? = some e
  time : ∀ l e l' (p : Nat) e', e ∈ E.list l → (E'.list l')[p]? = some e' →
    (E.list l')[p]? = some e' ∧ c'.time e = c.time e ∧ c'.time e' = c.time e' ∨ c'.time e < c'.time e'
  creator : ∀ l e u, e ∈ E.list l → c'.creator u = some e → c.creator u = some e
  good : ∀ l e, e ∈ E.list l → (E'.Good e ↔ E.Good e)

theorem Follows.later (hf : Follows E c t h i ops h' i') (hl : Later E c E' c') : Follows E' c' t h i ops h' i' := by
  induction hf with
  | nil => exact .nil
  | peek hev heq _ ih => exact .peek (hl.pool _ _ _ hev) heq ih
  | @wait _ _ i _ _ l _ hpos hgood hbefore hchild _ ih =>
    have hmem : (⟨t, i⟩ : EventRef) ∈ E.list l := List.mem_of_getElem? hpos
    refine .wait (hl.list _ _ _ hpos) ((hl.good l _ hmem).mpr hgood) (fun l' p' e' hh he' hg => ?_)
      (fun u hu => hchild u (hl.creator l _ u hmem hu)) ih
    rcases hl.time l _ l' _ e' hmem he' with ⟨hold, ht, ht'⟩ | hlt
    · rw [ht, ht']
      exact hbefore l' p' e' hh hold ((hl.good l' e' (List.mem_of_getElem? hold)).mp hg)
    · exact hlt
  | fail hev hret _ ih => exact .fail (hl.pool _ _ _ hev) hret ih
  | wakeup _ ih => exact .wakeup ih
  | advance _ ih => exact .advance ih
  | release hne _ ih => exact .release hne ih
  | signal _ ih => exact .signal ih

namespace Epoch

/-- The event at this position is the last one that took the mutex, and of this thread. -/
def LastTaken (E : Epoch) (t m p : Nat) : Prop := ∃ e, (E.list (.mutex m))[p]? = some e ∧ e.thread = t ∧ E.Good e ∧
  ∀ (p' : Nat) e', p < p' → (E.list (.mutex m))[p']? = some e' → ¬ E.Good e'

/-- What a thread holds during the recording: each of its mutexes with the last event that took it. One that it has held
    since before the epoch has none. -/
structure Keeps (E : Epoch) (t : Nat) (h : Hold) : Prop where
  mutex : ∀ m p, h (.mutex m) = some p → E.holder m = some t ∧ E.LastTaken t m p
  owned : ∀ m, E.holder m = some t → E.startOwner m ≠ some t → h (.mutex m) ≠ none
  spawning : h .spawning = none

/-- The replay operations of the part of a call that is not recorded yet. -/
def rest (E : Epoch) (t : Nat) : List ReplayOp :=
  match E.unrecorded t with
  | none => []
  | some m => [.peekSyncEvent (.mutex m), .waitSemaphore, .advanceThreadSyncList]

/-- The moments along the lists and along the threads; `now` is the next one. -/
structure Timed (E : Epoch) (c : Clock) (now : Nat) : Prop where
  lt : ∀ l, ∀ e ∈ E.list l, c.time e < now
  list : ∀ l (p : Nat) e e', (E.list l)[p]? = some e → (E.list l)[p + 1]? = some e' → c.time e < c.time e'
  pool : ∀ t i j, i < j → j < (E.syncevents t).length → c.time ⟨t, i⟩ < c.time ⟨t, j⟩

/-- The operations of a thread so far, and what it holds after them. -/
def Followed (E : Epoch) (c : Clock) (t : Nat) : Prop :=
  ∃ done h, (E.calls t).flatMap SyncCall.replay = done ++ E.rest t ∧
    Follows E c t (fun _ => none) 0 done h (E.syncevents t).length ∧ E.Keeps t h

/-- The recording so far. -/
structure Recorded (E : Epoch) (c : Clock) (now : Nat) : Prop where
  timed : E.Timed c now
  creator : ∀ u e, c.creator u = some e → (∃ l, e ∈ E.list l) ∧
    ∀ i, i < (E.syncevents u).length → c.time e < c.time ⟨u, i⟩
  spawned : ∀ u, E.isNewlySpawned u = true → ∃ e, c.creator u = some e
  alive : ∀ t, E.alive t = false → E.syncevents t = []
  follows : ∀ t, E.stale t = false → E.Followed c t

variable {now : Nat} {l : SyncVar} {ret : Int} {m : Nat}

theorem Paired.fresh (hp : E.Paired) (t : Nat) : ∀ l, (⟨t, (E.syncevents t).length⟩ : EventRef) ∉ E.list l := by
  intro l he
  obtain ⟨p, he⟩ := List.getElem?_of_mem he
  obtain ⟨ev, hev, -⟩ := hp.ref l p _ he
  simp at hev

theorem Paired.mem (hp : E.Paired) {i : Nat} (hi : i < (E.syncevents t).length) : ∃ l, (⟨t, i⟩ : EventRef) ∈ E.list l := by
  obtain ⟨-, p, hpos⟩ := hp.listed t i _ (List.getElem?_eq_getElem hi)
  exact ⟨_, List.mem_of_getElem? hpos⟩

theorem Records.good_old (hr : Records t l ret E E') (hp : E.Paired) {l' : SyncVar} {e : EventRef} (he : e ∈ E.list l') :
    E'.Good e ↔ E.Good e := by
  constructor
  · rintro ⟨ev, hev, hret⟩
    rcases hr.pool.mp hev with hold | ⟨ht, hi, -⟩
    · exact ⟨ev, hold, hret⟩
    · obtain ⟨u, i⟩ := e
      dsimp only at ht hi
      subst ht hi
      exact absurd he (hp.fresh u l')
  · rintro ⟨ev, hev, hret⟩
    exact ⟨ev, hr.pool.mpr (.inl hev), hret⟩

section
variable (hp : E.Paired) {creator : Nat → Option EventRef}
include hp

/-- The moment of an event that was there before. -/
theorem tick_old {l' : SyncVar} {e : EventRef} (he : e ∈ E.list l') :
    (c.tick ⟨t, (E.syncevents t).length⟩ now creator).time e = c.time e := by
  refine Function.update_of_ne ?_ _ _
  rintro rfl
  exact hp.fresh t l' he

variable (hr : Records t l ret E E')
include hr

theorem Timed.records (h : E.Timed c now) : E'.Timed (c.tick ⟨t, (E.syncevents t).length⟩ now creator) (now + 1) := by
  have hnew : (c.tick ⟨t, (E.syncevents t).length⟩ now creator).time ⟨t, (E.syncevents t).length⟩ = now :=
    Function.update_self _ _ _
  constructor
  · intro l' e he
    obtain ⟨p, he⟩ := List.getElem?_of_mem he
    rcases hr.position.mp he with he | ⟨-, -, rfl⟩
    · have hmem := List.mem_of_getElem? he
      rw [tick_old hp hmem]
      have := h.lt l' e hmem
      omega
    · omega
  · intro l' p e e' he he'
    rcases hr.position.mp he' with he' | ⟨rfl, hlen, rfl⟩
    · have hlt : p + 1 < (E.list l').length := (List.getElem?_eq_some_iff.mp he').1
      rcases hr.position.mp he with he | ⟨rfl, hlen, -⟩
      · rw [tick_old hp (List.mem_of_getElem? he), tick_old hp (List.mem_of_getElem? he')]
        exact h.list l' p e e' he he'
      · omega
    · rcases hr.position.mp he with he | ⟨-, hlen', -⟩
      · rw [hnew, tick_old hp (List.mem_of_getElem? he)]
        exact h.lt _ e (List.mem_of_getElem? he)
      · omega
  · intro u i j hij hj
    -- Both are old, or the later one is the new event.
    have hlen : (E'.syncevents u).length = if u = t then (E.syncevents t).length + 1 else (E.syncevents u).length := by
      rw [hr.syncevents]
      by_cases hu : u = t <;> simp [hu]
    by_cases hold : j < (E.syncevents u).length
    · obtain ⟨li, hi⟩ := hp.mem (Nat.lt_trans hij hold)
      obtain ⟨lj, hj'⟩ := hp.mem hold
      rw [tick_old hp hi, tick_old hp hj']
      exact h.pool u i j hij hold
    · have hu : u = t := by
        by_contra hu
        rw [if_neg hu] at hlen
        omega
      subst hu
      rw [if_pos rfl] at hlen
      obtain rfl : j = (E.syncevents u).length := by omega
      obtain ⟨li, hi⟩ := hp.mem hij
      rw [hnew, tick_old hp hi]
      exact h.lt li _ hi

theorem Timed.later (h : E.Timed c now)
    (hcreator : ∀ l' e u, e ∈ E.list l' → creator u = some e → c.creator u = some e) :
    Later E c E' (c.tick ⟨t, (E.syncevents t).length⟩ now creator) := by
  refine ⟨fun u i ev hev => hr.pool.mpr (.inl hev), fun l' p e he => hr.position.mpr (.inl he), ?_, hcreator,
    fun l' e he => hr.good_old hp he⟩
  intro l₁ e l₂ p e' he he'
  rw [tick_old hp he]
  rcases hr.position.mp he' with he' | ⟨-, -, rfl⟩
  · rw [tick_old hp (List.mem_of_getElem? he')]
    exact .inl ⟨he', rfl, rfl⟩
  · refine .inr ?_
    have hnew : (c.tick ⟨t, (E.syncevents t).length⟩ now creator).time ⟨t, (E.syncevents t).length⟩ = now :=
      Function.update_self _ _ _
    rw [hnew]
    exact h.lt l₁ e he

end

/-- Nothing is recorded. -/
theorem later_same (hs : E'.syncevents = E.syncevents) (hl : E'.list = E.list) : Later E c E' c := by
  refine ⟨fun t i ev hev => ?_, fun l p e he => ?_, fun l e l' p e' _ he' => .inl ⟨?_, rfl, rfl⟩, fun _ _ _ _ h => h,
    fun l e _ => ?_⟩
  · rw [hs]
    exact hev
  · rw [hl]
    exact he
  · rw [hl] at he'
    exact he'
  · rw [Good, Good, hs]

theorem Timed.same (h : E.Timed c now) (hs : E'.syncevents = E.syncevents) (hl : E'.list = E.list) : E'.Timed c now := by
  refine ⟨?_, ?_, ?_⟩
  · rw [hl]
    exact h.lt
  · rw [hl]
    exact h.list
  · rw [hs]
    exact h.pool

/-- An event that takes a mutex is recorded when nobody holds it. -/
def NewWhenFree (E E' : Epoch) : Prop := ∀ m (p : Nat) e, (E'.list (.mutex m))[p]? = some e → E'.Good e →
  (E.list (.mutex m))[p]? = some e ∨ E.holder m = none

theorem Did.newWhenFree (hd : E.Did E') : E.NewWhenFree E' := by
  intro m p e he hg
  rcases hd.records with ⟨-, hl⟩ | ⟨t, l, ret, hr, hfree, -⟩
  · rw [hl] at he
    exact .inl he
  · rcases hr.position.mp he with he | ⟨rfl, -, rfl⟩
    · exact .inl he
    · obtain ⟨ev, hev, hret⟩ := hg
      rcases hr.pool.mp hev with hold | ⟨-, -, rfl⟩
      · simp at hold
      · exact .inr (hfree m rfl hret)

theorem LastTaken.later {p : Nat} (h : E.LastTaken t m p) (hl : Later E c E' c') (hn : E.NewWhenFree E')
    (ho : E.holder m ≠ none) : E'.LastTaken t m p := by
  obtain ⟨e, he, ht, hg, hlast⟩ := h
  refine ⟨e, hl.list _ _ _ he, ht, (hl.good _ _ (List.mem_of_getElem? he)).mpr hg, fun p' e' hlt he' hg' => ?_⟩
  rcases hn m p' e' he' hg' with hold | hfree
  · exact hlast p' e' hlt hold ((hl.good _ _ (List.mem_of_getElem? hold)).mp hg')
  · exact ho hfree

/-- What a thread holds and does not release it holds further. -/
theorem Keeps.later (hk : E.Keeps t h) (hl : Later E c E' c') (hn : E.NewWhenFree E')
    (ho : ∀ m, E'.holder m = some t ↔ E.holder m = some t) (hs : E'.startOwner = E.startOwner) : E'.Keeps t h := by
  refine ⟨fun m p hh => ?_, fun m hm => ?_, hk.spawning⟩
  · obtain ⟨howner, hlast⟩ := hk.mutex m p hh
    exact ⟨(ho m).mpr howner, hlast.later hl hn (by simp [howner])⟩
  · rw [hs]
    exact hk.owned m ((ho m).mp hm)

theorem Keeps.take {p : Nat} (hk : E.Keeps t h) (hl : Later E c E' c') (hn : E.NewWhenFree E')
    (ho : E'.holder = Function.update E.holder m (some t)) (hs : E'.startOwner = E.startOwner) (hm : E.holder m = none)
    (hlast : E'.LastTaken t m p) : E'.Keeps t (Function.update h (.mutex m) (some p)) := by
  refine ⟨fun m' p' hh => ?_, fun m' hm' => ?_, ?_⟩
  · by_cases heq : m' = m
    · subst heq
      rw [Function.update_self] at hh
      cases hh
      exact ⟨by rw [ho, Function.update_self], hlast⟩
    · rw [Function.update_of_ne (by simpa using heq)] at hh
      obtain ⟨howner, hlast'⟩ := hk.mutex m' p' hh
      exact ⟨by rw [ho, Function.update_of_ne heq, howner], hlast'.later hl hn (by simp [howner])⟩
  · by_cases heq : m' = m
    · subst heq
      simp
    · rw [ho, Function.update_of_ne heq] at hm'
      rw [hs, Function.update_of_ne (by simpa using heq)]
      exact hk.owned m' hm'
  · exact (Function.update_of_ne (by simp) _ _).trans hk.spawning

theorem Keeps.drop (hk : E.Keeps t h) (hl : Later E c E' c') (hn : E.NewWhenFree E')
    (ho : E'.holder = Function.update E.holder m none) (hs : E'.startOwner = E.startOwner) :
    E'.Keeps t (Function.update h (.mutex m) none) := by
  refine ⟨fun m' p' hh => ?_, fun m' hm' => ?_, ?_⟩
  · by_cases heq : m' = m
    · subst heq
      simp at hh
    · rw [Function.update_of_ne (by simpa using heq)] at hh
      obtain ⟨howner, hlast'⟩ := hk.mutex m' p' hh
      exact ⟨by rw [ho, Function.update_of_ne heq, howner], hlast'.later hl hn (by simp [howner])⟩
  · by_cases heq : m' = m
    · subst heq
      simp [ho] at hm'
    · rw [ho, Function.update_of_ne heq] at hm'
      rw [hs, Function.update_of_ne (by simpa using heq)]
      exact hk.owned m' hm'
  · exact (Function.update_of_ne (by simp) _ _).trans hk.spawning

/-- What the other threads see of a step of `t`. -/
structure Others (t : Nat) (E E' : Epoch) : Prop where
  calls : ∀ u, u ≠ t → E'.calls u = E.calls u
  unrecorded : ∀ u, u ≠ t → E'.unrecorded u = E.unrecorded u
  pool : ∀ u, u ≠ t → E'.syncevents u = E.syncevents u
  holder : ∀ u m, u ≠ t → (E'.holder m = some u ↔ E.holder m = some u)
  startOwner : E'.startOwner = E.startOwner
  stale : ∀ u, E'.stale u = false → E.stale u = false

theorem Followed.other {u : Nat} (h : E.Followed c u) (ho : Others t E E') (hu : u ≠ t) (hl : Later E c E' c')
    (hn : E.NewWhenFree E') : E'.Followed c' u := by
  obtain ⟨done, h, hcalls, hfollows, hkeeps⟩ := h
  refine ⟨done, h, ?_, ?_, hkeeps.later hl hn (fun m => ho.holder u m hu) ho.startOwner⟩
  · rw [rest, ho.calls u hu, ho.unrecorded u hu]
    exact hcalls
  · rw [ho.pool u hu]
    exact hfollows.later hl

theorem rest_none (h : E.unrecorded t = none) : E.rest t = [] := by rw [rest, h]

/-- A thread outside of the calls has done all operations of its calls. -/
theorem Followed.outside (h : E.Followed c t) (hc : E.unrecorded t = none) : ∃ h,
    Follows E c t (fun _ => none) 0 ((E.calls t).flatMap SyncCall.replay) h (E.syncevents t).length ∧ E.Keeps t h := by
  obtain ⟨done, h, hcalls, hfollows, hkeeps⟩ := h
  rw [rest_none hc, List.append_nil] at hcalls
  exact ⟨h, hcalls ▸ hfollows, hkeeps⟩

/-- Nothing waits for what the thread holds. -/
theorem Keeps.before (hk : E.Keeps t h) (hl : Later E c E' c') (hn : E.NewWhenFree E') (e : EventRef) :
    h.Before E' c' e := by
  intro l p e' hh he' hg
  cases l with
  | mutex m =>
    obtain ⟨howner, hlast⟩ := hk.mutex m p hh
    obtain ⟨-, -, -, -, hnone⟩ := hlast.later hl hn (by simp [howner])
    exact absurd hg (hnone (p + 1) e' (by omega) he')
  | spawning =>
    rw [hk.spawning] at hh
    cases hh

section
variable (hr : Records t l ret E E')
include hr

theorem Records.new : (E'.syncevents t)[(E.syncevents t).length]? = some ⟨t, l, ret⟩ ∧
    (E'.list l)[(E.list l).length]? = some ⟨t, (E.syncevents t).length⟩ :=
  ⟨hr.pool.mpr (.inr ⟨rfl, rfl, rfl⟩), hr.position.mpr (.inr ⟨rfl, rfl, rfl⟩)⟩

theorem Records.length : (E'.syncevents t).length = (E.syncevents t).length + 1 := by
  rw [hr.syncevents, Function.update_self, List.length_append, List.length_singleton]

theorem Records.good_new (hret : ret = 0) : E'.Good ⟨t, (E.syncevents t).length⟩ := ⟨_, hr.new.1, hret⟩

theorem Records.lastTaken (hl : l = .mutex m) (hret : ret = 0) : E'.LastTaken t m (E.list (.mutex m)).length := by
  subst hl
  refine ⟨_, hr.new.2, rfl, hr.good_new hret, fun p' e' hlt he' => ?_⟩
  have hlen := (List.getElem?_eq_some_iff.mp he').1
  rw [hr.list, Function.update_self, List.length_append, List.length_singleton] at hlen
  omega

/-- The operations of a call that takes a mutex. -/
theorem follows_take {done : List ReplayOp} (hf : Follows E c t (fun _ => none) 0 done h (E.syncevents t).length)
    (hk : E.Keeps t h) (hlater : Later E c E' c') (hn : E.NewWhenFree E') (hret : ret = 0)
    (hchild : ∀ u, c'.creator u ≠ some ⟨t, (E.syncevents t).length⟩) :
    Follows E' c' t (fun _ => none) 0 (done ++ [.peekSyncEvent l, .waitSemaphore, .advanceThreadSyncList])
      (Function.update h l (some (E.list l).length)) (E'.syncevents t).length := by
  rw [hr.length]
  refine (hf.later hlater).append (.peek hr.new.1 rfl (.wait hr.new.2 (hr.good_new hret) (hk.before hlater hn _) ?_ ?_))
  · exact fun u hu => absurd hu (hchild u)
  · exact .advance .nil

theorem follows_tryFailed {done : List ReplayOp} (hf : Follows E c t (fun _ => none) 0 done h (E.syncevents t).length)
    (hlater : Later E c E' c') (hret : ret ≠ 0) :
    Follows E' c' t (fun _ => none) 0 (done ++ [.peekSyncEvent l, .waitSemaphore, .advanceThreadSyncList]) h
      (E'.syncevents t).length := by
  rw [hr.length]
  exact (hf.later hlater).append (.peek hr.new.1 rfl (.fail hr.new.1 hret (.advance .nil)))

theorem follows_create {done : List ReplayOp} (child : Nat)
    (hf : Follows E c t (fun _ => none) 0 done h (E.syncevents t).length) (hk : E.Keeps t h) (hlater : Later E c E' c')
    (hn : E.NewWhenFree E') (hl : l = .spawning) (hret : ret = 0)
    (hchild : ∀ u, c'.creator u = some ⟨t, (E.syncevents t).length⟩ → u = child) :
    Follows E' c' t (fun _ => none) 0 (done ++ (SyncCall.threadCreate child).replay) h (E'.syncevents t).length := by
  subst hl
  rw [hr.length]
  have hspawn : Function.update (Function.update h .spawning (some (E.list .spawning).length)) .spawning none = h := by
    rw [Function.update_idem, Function.update_eq_self_iff]
    exact hk.spawning.symm
  refine (hf.later hlater).append (.peek hr.new.1 rfl (.wait hr.new.2 (hr.good_new hret) (hk.before hlater hn _) ?_ ?_))
  · intro u hu
    exact ⟨_, by rw [hchild u hu]⟩
  · refine .wakeup (.advance (.release ?_ ?_))
    · rw [Function.update_self]
      nofun
    · rw [hspawn]
      exact .nil

/-- An event is recorded. -/
theorem Recorded.step (hR : E.Recorded c now) (hp : E.Paired) (hn : E.NewWhenFree E') (ho : Others t E E')
    {creator : Nat → Option EventRef}
    (hcreator : ∀ u e, creator u = some e →
      c.creator u = some e ∨ e = ⟨t, (E.syncevents t).length⟩ ∧ u ≠ t ∧ E.syncevents u = [])
    (hspawned : ∀ u, E'.isNewlySpawned u = true → ∃ e, creator u = some e)
    (halive : ∀ u, E'.alive u = false → E.alive u = false ∧ u ≠ t)
    (hself : E'.stale t = false → E'.Followed (c.tick ⟨t, (E.syncevents t).length⟩ now creator) t) :
    E'.Recorded (c.tick ⟨t, (E.syncevents t).length⟩ now creator) (now + 1) := by
  have hnew : (c.tick ⟨t, (E.syncevents t).length⟩ now creator).time ⟨t, (E.syncevents t).length⟩ = now :=
    Function.update_self _ _ _
  have hlater : Later E c E' (c.tick ⟨t, (E.syncevents t).length⟩ now creator) := by
    refine hR.timed.later hp hr fun l' e u he hu => ?_
    rcases hcreator u e hu with hold | ⟨rfl, -⟩
    · exact hold
    · exact absurd he (hp.fresh t l')
  refine ⟨hR.timed.records hp hr, fun u e hu => ?_, hspawned, fun u hu => ?_, fun u hst => ?_⟩
  · rcases hcreator u e hu with hold | ⟨rfl, hut, hnil⟩
    · obtain ⟨⟨l', he⟩, htime⟩ := hR.creator u e hold
      obtain ⟨p, hpos⟩ := List.getElem?_of_mem he
      refine ⟨⟨l', List.mem_of_getElem? (hr.position.mpr (.inl hpos))⟩, fun i hi => ?_⟩
      rw [tick_old hp he]
      by_cases hold : i < (E.syncevents u).length
      · obtain ⟨li, hli⟩ := hp.mem hold
        rw [tick_old hp hli]
        exact htime i hold
      · obtain rfl : u = t := by
          by_contra hut
          rw [ho.pool u hut] at hi
          exact hold hi
        rw [hr.length] at hi
        obtain rfl : i = (E.syncevents u).length := by omega
        rw [hnew]
        exact hR.timed.lt l' e he
    · refine ⟨⟨l, List.mem_of_getElem? hr.new.2⟩, fun i hi => ?_⟩
      rw [ho.pool u hut, hnil] at hi
      exact absurd hi (Nat.not_lt_zero i)
  · obtain ⟨hdead, hut⟩ := halive u hu
    rw [ho.pool u hut]
    exact hR.alive u hdead
  · by_cases hut : u = t
    · subst hut
      exact hself hst
    · exact (hR.follows u (ho.stale u hst)).other ho hut hlater hn

end

end Epoch

end DoubleTake
