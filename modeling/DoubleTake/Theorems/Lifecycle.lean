import DoubleTake.Lifecycle

/-! Creating and joining threads under every interleaving: the assertion of `startThread` holds, a joined thread's result is what its
    start routine has returned, and no wakeup is lost. -/

namespace DoubleTake

open Transition

namespace Lifecycle

variable {s s' : State} {t u a b r : Nat} {p q : Pc}

@[simp] theorem State.setPc_self (s : State) (t : Nat) (p : Pc) : (s.setPc t p).pc t = p := by simp [State.setPc]

theorem State.setPc_of_ne (s : State) (p : Pc) (h : u ≠ t) : (s.setPc t p).pc u = s.pc u := by simp [State.setPc, h]

/-! ### What a thread is known by -/

/-- How far a thread has come. -/
inductive Stage where
  | absent
  | starting
  /-- It has registered and is about to signal it. -/
  | announcing
  | running
  /-- Its status says that it has finished: it is about to look at its joiner, and to signal it. -/
  | checking
  | signalling
  | finished
  deriving DecidableEq, Repr

def Pc.stage : Pc → Stage
  | .absent => .absent
  | .registerLock | .register => .starting
  | .registerSignal => .announcing
  | .finishCheck => .checking
  | .finishSignal => .signalling
  | .finishLoop | .finishSleep | .finishRelock | .failed => .finished
  | _ => .running

/-- The status of a thread that is there. -/
def Pc.status : Pc → ThreadStatus
  | .registerLock | .register => .starting
  | .finishCheck | .finishSignal | .finishLoop | .finishSleep | .finishRelock | .failed => .waitForReaping
  | .markUnlock _ | .joinLock _ | .joinLoop _ | .joinSleep _ | .joinRelock _ | .joinTake _ | .joinUnlock .. | .unmarkLock .. |
    .unmark .. => .joining
  | _ => .running

/-- Whose mutex the thread holds. -/
def Pc.holds (t : Nat) : Pc → Option Nat
  | .createLoop u | .createDone u | .joinLoop u | .joinTake u | .joinUnlock u _ => some u
  | .register | .registerSignal | .registerUnlock | .finishStore _ | .finishCheck | .finishSignal | .finishLoop | .failed | .mark _ |
    .markUnlock _ | .unmark .. | .unmarkUnlock .. => some t
  | _ => none

/-- Whom the thread has created and waits for. -/
def Pc.child : Pc → Option Nat
  | .createUnlock c | .createWait c | .createLoop c | .createSleep c | .createRelock c | .createDone c => some c
  | _ => none

/-- The thread has not taken the result of its joinee yet. -/
def Pc.before : Pc → Bool
  | .markLock _ | .mark _ | .markUnlock _ | .joinLock _ | .joinLoop _ | .joinSleep _ | .joinRelock _ | .joinTake _ => true
  | _ => false

/-- Whose loop the thread is in. -/
def Pc.waits : Pc → Option Nat
  | .joinLoop u | .joinSleep u | .joinRelock u => some u
  | _ => none

/-- Whose result the thread is about to take. -/
def Pc.takes : Pc → Option Nat
  | .joinTake u => some u
  | _ => none

def Pc.isFailed : Pc → Bool
  | .failed => true
  | _ => false

/-- The result that the thread has taken. -/
def Pc.took : Pc → Option (Nat × Nat)
  | .joinUnlock u r | .unmarkLock u r | .unmark u r | .unmarkUnlock u r | .joinDone u r => some (u, r)
  | _ => none

/-- The result of a thread whose start routine has returned; it is in `stored` once the thread has stored it. -/
def Pc.reports (stored : Nat) : Pc → Option Nat
  | .finishLock result | .finishStore result => some result
  | .finishCheck | .finishSignal | .finishLoop | .finishSleep | .finishRelock | .failed => some stored
  | _ => none

def Pc.awake : Pc → Bool
  | .createSleep _ | .joinSleep _ => false
  | _ => true

/-- The thread may still look at its joiner. -/
def Stage.early : Stage → Bool
  | .starting | .announcing | .running | .checking => true
  | _ => false

/-- The same thread is created or joined at both. -/
structure Like (p q : Pc) : Prop where
  child : ∀ c, q.child = some c → p.child = some c
  joinee : q.joinee = p.joinee
  before : q.before = p.before
  waits : ∀ u, p.waits = some u → q.waits = some u
  takes : q.takes = p.takes
  took : q.took = p.took
  notFailed : q.isFailed = false

/-! ### The invariant -/

/-- What holds of a thread at its place. -/
structure Ok (s : State) (a : Nat) (p : Pc) : Prop where
  status : p ≠ .absent → (s.thread a).status = p.status
  holds : ∀ u, p.holds a = some u → s.mutex u = some a
  child : ∀ c, p.child = some c → (s.pc c).stage ≠ .absent
  joinee : ∀ u, p.joinee = some u → (s.pc u).stage ≠ .absent ∧ u ≠ a ∧ (s.thread u).isDetached = false
  before : ∀ u, p.joinee = some u → p.before = true → (s.thread u).hasJoined = false
  takes : ∀ u, p.takes = some u → (s.pc u).stage = .finished
  took : ∀ u r, p.took = some (u, r) → (s.pc u).stage = .finished ∧ (s.thread u).result = r
  notFailed : p.isFailed = false
  slot : p ≠ .absent → a ∈ State.slots

structure Inv (s : State) : Prop where
  ok : ∀ a, Ok s a (s.pc a)
  owner : ∀ u a, s.mutex u = some a → (s.pc a).holds a = some u
  alone : ∀ u a b, (s.pc a).joinee = some u → (s.pc b).joinee = some u → a = b
  joiner : ∀ u a, (s.thread u).joiner = some a → (s.pc u).stage.early = true → (s.pc a).waits = some u

/-- What a step of the thread `t` keeps for the others. -/
structure Keeps (s s' : State) (t : Nat) (p : Pc) : Prop where
  pc : s'.pc = Function.update s.pc t p
  mutex : ∀ u a, a ≠ t → (s'.mutex u = some a ↔ s.mutex u = some a)
  status : ∀ u, u ≠ t → (s'.thread u).status = (s.thread u).status
  isDetached : ∀ u, (s.pc u).stage ≠ .absent → (s'.thread u).isDetached = (s.thread u).isDetached
  hasJoined : ∀ u a, a ≠ t → (s.pc a).joinee = some u → (s'.thread u).hasJoined = (s.thread u).hasJoined
  result : ∀ u, (s.pc u).stage = .finished → (s'.thread u).result = (s.thread u).result
  present : p.stage ≠ .absent
  finished : (s.pc t).stage = .finished → p.stage = .finished

theorem Keeps.stage_ne (h : Keeps s s' t p) (hu : (s.pc u).stage ≠ .absent) : (s'.pc u).stage ≠ .absent := by
  rw [h.pc]
  by_cases hut : u = t
  · rw [hut, Function.update_self]
    exact h.present
  · rw [Function.update_of_ne hut]
    exact hu

theorem Keeps.stage_finished (h : Keeps s s' t p) (hu : (s.pc u).stage = .finished) : (s'.pc u).stage = .finished := by
  rw [h.pc]
  by_cases hut : u = t
  · subst hut
    rw [Function.update_self]
    exact h.finished hu
  · rw [Function.update_of_ne hut]
    exact hu

/-- The others stay where they are. -/
theorem Keeps.ok (h : Keeps s s' t p) (hok : Ok s a (s.pc a)) (ha : a ≠ t) : Ok s' a (s'.pc a) := by
  have hpc : s'.pc a = s.pc a := by rw [h.pc, Function.update_of_ne ha]
  rw [hpc]
  refine ⟨fun hp => (h.status a ha).trans (hok.status hp), fun u hu => (h.mutex u a ha).mpr (hok.holds u hu),
    fun c hc => h.stage_ne (hok.child c hc), fun u hu => ?_, fun u hu hb => ?_, fun u hu => h.stage_finished (hok.takes u hu),
    fun u r hr => ?_, hok.notFailed, hok.slot⟩
  · obtain ⟨hstage, hne, hdet⟩ := hok.joinee u hu
    exact ⟨h.stage_ne hstage, hne, (h.isDetached u hstage).trans hdet⟩
  · exact (h.hasJoined u a ha hu).trans (hok.before u hu hb)
  · obtain ⟨hstage, hresult⟩ := hok.took u r hr
    exact ⟨h.stage_finished hstage, (h.result u hstage).trans hresult⟩

/-- A step of the thread `t`, by what it does for `t`. -/
theorem Inv.turn (h : Inv s) (hk : Keeps s s' t p) (hok : Ok s' t p) (howner : ∀ u, s'.mutex u = some t → p.holds t = some u)
    (halone : ∀ u b, b ≠ t → p.joinee = some u → (s.pc b).joinee ≠ some u)
    (hjoiner : ∀ u a, (s'.thread u).joiner = some a → (s'.pc u).stage.early = true → (s'.pc a).waits = some u) : Inv s' := by
  have hpc : ∀ b, b ≠ t → s'.pc b = s.pc b := fun b hb => by rw [hk.pc, Function.update_of_ne hb]
  have hself : s'.pc t = p := by rw [hk.pc, Function.update_self]
  refine ⟨fun a => ?_, fun u a hu => ?_, fun u a b ha hb => ?_, hjoiner⟩
  · by_cases hat : a = t
    · rw [hat, hself]
      exact hok
    · exact hk.ok (h.ok a) hat
  · by_cases hat : a = t
    · subst hat
      rw [hself]
      exact howner u hu
    · rw [hpc a hat]
      exact h.owner u a ((hk.mutex u a hat).mp hu)
  · by_cases hat : a = t
    · by_cases hbt : b = t
      · rw [hat, hbt]
      · rw [hpc b hbt] at hb
        rw [hat, hself] at ha
        exact absurd hb (halone u b hbt ha)
    · rw [hpc a hat] at ha
      by_cases hbt : b = t
      · rw [hbt, hself] at hb
        exact absurd ha (halone u a hat hb)
      · rw [hpc b hbt] at hb
        exact h.alone u a b ha hb

/-- The thread `t` takes a mutex, releases one, or does neither. -/
def Mutexes (s s' : State) (t : Nat) (p q : Pc) : Prop :=
  s'.mutex = s.mutex ∧ q.holds t = p.holds t ∨
  (∃ u, s.mutex u = none ∧ s'.mutex = Function.update s.mutex u (some t) ∧ p.holds t = none ∧ q.holds t = some u) ∨
  ∃ u, s'.mutex = Function.update s.mutex u none ∧ p.holds t = some u ∧ q.holds t = none

theorem Inv.mutex_iff (h : Inv s) (u a : Nat) : s.mutex u = some a ↔ (s.pc a).holds a = some u :=
  ⟨h.owner u a, (h.ok a).holds u⟩

/-- The mutexes stay with those who hold them. -/
theorem Inv.mutexes (h : Inv s) (hpc : s.pc t = p) (hm : Mutexes s s' t p q) :
    (∀ u a, a ≠ t → (s'.mutex u = some a ↔ s.mutex u = some a)) ∧ ∀ u, s'.mutex u = some t ↔ q.holds t = some u := by
  have hself : ∀ u, s.mutex u = some t ↔ p.holds t = some u := fun u => by rw [h.mutex_iff, hpc]
  rcases hm with ⟨heq, hholds⟩ | ⟨v, hfree, heq, hp, hq⟩ | ⟨v, heq, hp, hq⟩
  · rw [heq, hholds]
    exact ⟨fun _ _ _ => Iff.rfl, hself⟩
  · rw [heq]
    refine ⟨fun u a ha => ?_, fun u => ?_⟩
    · by_cases huv : u = v
      · rw [huv, Function.update_self, hfree]
        exact iff_of_false (fun hs => ha (Option.some.inj hs).symm) fun hs => by cases hs
      · rw [Function.update_of_ne huv]
    · by_cases huv : u = v
      · rw [huv, Function.update_self, hq]
        exact iff_of_true rfl rfl
      · rw [Function.update_of_ne huv, hself, hp, hq]
        exact iff_of_false (fun hs => by cases hs) fun hs => huv (Option.some.inj hs).symm
  · have hv : s.mutex v = some t := (hself v).mpr hp
    rw [heq]
    refine ⟨fun u a ha => ?_, fun u => ?_⟩
    · by_cases huv : u = v
      · rw [huv, Function.update_self, hv]
        exact iff_of_false (fun hs => by cases hs) fun hs => ha (Option.some.inj hs).symm
      · rw [Function.update_of_ne huv]
    · rw [hq]
      refine iff_of_false (fun hs => ?_) fun hs => by cases hs
      by_cases huv : u = v
      · rw [huv, Function.update_self] at hs
        cases hs
      · rw [Function.update_of_ne huv, hself, hp] at hs
        exact huv (Option.some.inj hs).symm

/-- The thread `t` goes on with its own business, and changes its own fields only. -/
theorem Inv.own (info : ThreadT) (h : Inv s) (hpc : s.pc t = p) (hl : Like p q) (hm : Mutexes s s' t p q)
    (hpc' : s'.pc = Function.update s.pc t q) (hthread : s'.thread = Function.update s.thread t info)
    (hkept : info.isDetached = (s.thread t).isDetached ∧ info.hasJoined = (s.thread t).hasJoined)
    (hresult : p.stage = .finished → info.result = (s.thread t).result) (hstatus : info.status = q.status)
    (hpresent : p ≠ .absent ∧ q.stage ≠ .absent) (hfin : p.stage = .finished → q.stage = .finished)
    (hjoiner : ∀ a, info.joiner = some a → q.stage.early = true → (s.pc a).waits = some t) : Inv s' := by
  obtain ⟨hothers, hself⟩ := h.mutexes hpc hm
  have hold := h.ok t
  rw [hpc] at hold
  have hinfo : s'.thread t = info := by rw [hthread, Function.update_self]
  have hother : ∀ u, u ≠ t → s'.thread u = s.thread u := fun u hu => by rw [hthread, Function.update_of_ne hu]
  have hk : Keeps s s' t q := by
    refine ⟨hpc', hothers, fun u hu => by rw [hother u hu], fun u _ => ?_, fun u a _ _ => ?_, fun u hu => ?_, hpresent.2, fun hf => ?_⟩
    · by_cases hut : u = t
      · rw [hut, hinfo, hkept.1]
      · rw [hother u hut]
    · by_cases hut : u = t
      · rw [hut, hinfo, hkept.2]
      · rw [hother u hut]
    · by_cases hut : u = t
      · subst hut
        rw [hinfo, hresult (by rw [← hpc]; exact hu)]
      · rw [hother u hut]
    · rw [hpc] at hf
      exact hfin hf
  have hwaits : ∀ a u, (s.pc a).waits = some u → (s'.pc a).waits = some u := by
    intro a u hw
    rw [hpc']
    by_cases hat : a = t
    · rw [hat, hpc] at hw
      rw [hat, Function.update_self]
      exact hl.waits u hw
    · rw [Function.update_of_ne hat]
      exact hw
  refine h.turn hk ?_ (fun u hu => (hself u).mp hu) (fun u b hb hq hsb => ?_) fun u a hu hearly => ?_
  · refine ⟨fun _ => by rw [hinfo]; exact hstatus, fun u hu => (hself u).mpr hu, fun c hc => hk.stage_ne (hold.child c (hl.child c hc)),
      fun u hu => ?_, fun u hu hb => ?_, fun u hu => ?_, fun u r hr => ?_, hl.notFailed, fun _ => hold.slot hpresent.1⟩
    · obtain ⟨hstage, hne, hdet⟩ := hold.joinee u (hl.joinee ▸ hu)
      exact ⟨hk.stage_ne hstage, hne, (hk.isDetached u hstage).trans hdet⟩
    · rw [hl.joinee] at hu
      rw [hother u (hold.joinee u hu).2.1]
      exact hold.before u hu (hl.before ▸ hb)
    · exact hk.stage_finished (hold.takes u (hl.takes ▸ hu))
    · obtain ⟨hstage, hres⟩ := hold.took u r (hl.took ▸ hr)
      exact ⟨hk.stage_finished hstage, (hk.result u hstage).trans hres⟩
  · rw [hl.joinee, ← hpc] at hq
    exact hb (h.alone u b t hsb hq)
  · refine hwaits a u ?_
    by_cases hut : u = t
    · subst hut
      rw [hinfo] at hu
      rw [hpc', Function.update_self] at hearly
      exact hjoiner a hu hearly
    · rw [hother u hut] at hu
      rw [hpc', Function.update_of_ne hut] at hearly
      exact h.joiner u a hu hearly

/-! ### Steps -/

theorem Pc.stage_ne_absent (hp : p ≠ .absent) : p.stage ≠ .absent := by
  cases p with
  | absent => exact absurd rfl hp
  | _ => exact fun h => by cases h

/-- What a step of the thread `t` within a call does. -/
inductive Move (s s' : State) (t : Nat) : Prop where
  /-- It takes a mutex, releases one or does neither. Its fields, and how far it has come, are the same. -/
  | along (p q : Pc) : s.pc t = p → Like p q → Mutexes s s' t p q → s'.pc = Function.update s.pc t q → s'.thread = s.thread →
      p ≠ .absent → q.stage = p.stage → q.status = p.status → (∀ result, q.reports result = p.reports result) → q.awake = true →
      Move s s' t
  | createSleep (child : Nat) : s.pc t = .createLoop child → (s.thread child).status = .starting →
      s' = s.unlockThread t child (.createSleep child) → Move s s' t
  | register : s.pc t = .register →
      s' = (s.setThread t { s.thread t with status := .running, joiner := none }).setPc t .registerSignal → Move s s' t
  /-- It stores its result, or marks itself. -/
  | store (p q : Pc) (info : ThreadT) : s.pc t = p → s' = (s.setThread t info).setPc t q → Like p q → q.holds t = p.holds t →
      p.stage = .running → q.stage = .running ∨ q.stage = .checking → info.isDetached = (s.thread t).isDetached →
      info.hasJoined = (s.thread t).hasJoined → info.joiner = (s.thread t).joiner → info.status = q.status →
      q.reports info.result = p.reports (s.thread t).result → q.awake = true → Move s s' t
  /-- It has registered or finished, and signals it. -/
  | signal (p q : Pc) : s.pc t = p → p = .registerSignal ∧ q = .registerUnlock ∨ p = .finishSignal ∧ q = .finishLoop →
      s' = (s.signalThread t).setPc t q → Move s s' t
  | check (q : Pc) : s.pc t = .finishCheck → s' = s.setPc t q →
      q = .finishLoop ∧ ((s.thread t).isDetached = true ∨ (s.thread t).joiner = none) ∨
        (∃ joiner, (s.thread t).joiner = some joiner ∧ q = if (s.thread joiner).status = .joining then .finishSignal else .failed) →
      Move s s' t
  | leave : s.pc t = .finishLoop → (s.thread t).status = .exiting ∨ (s.thread t).status = .rollback →
      s' = s.unlockThread t t .absent → Move s s' t
  | take (joinee : Nat) : s.pc t = .joinLoop joinee → (s.thread joinee).status = .waitForReaping →
      s' = s.setPc t (.joinTake joinee) → Move s s' t
  | joinSleep (joinee : Nat) : s.pc t = .joinLoop joinee → (s.thread joinee).status ≠ .waitForReaping →
      s' = (s.setThread joinee { s.thread joinee with joiner := some t }).unlockThread t joinee (.joinSleep joinee) → Move s s' t
  | taken (joinee : Nat) : s.pc t = .joinTake joinee →
      s' = (s.setThread joinee { s.thread joinee with hasJoined := true }).setPc t
        (.joinUnlock joinee (s.thread joinee).result) → Move s s' t

theorem Move.lock (hs : s.lockThread t u q = some s') (hpc : s.pc t = p) (hl : Like p q) (hp : p ≠ .absent)
    (hstage : q.stage = p.stage) (hstatus : q.status = p.status) (hreports : ∀ result, q.reports result = p.reports result)
    (hq : q.awake = true) (hfree : p.holds t = none) (hheld : q.holds t = some u) : Move s s' t := by
  rw [State.lockThread] at hs
  split at hs
  · rename_i hu
    cases hs
    exact .along p q hpc hl (.inr (.inl ⟨u, hu, rfl, hfree, hheld⟩)) rfl rfl hp hstage hstatus hreports hq
  · cases hs

theorem Move.unlock (hpc : s.pc t = p) (hl : Like p q) (hp : p ≠ .absent) (hstage : q.stage = p.stage)
    (hstatus : q.status = p.status) (hreports : ∀ result, q.reports result = p.reports result) (hq : q.awake = true)
    (hheld : p.holds t = some u) (hfree : q.holds t = none) : Move s (s.unlockThread t u q) t :=
  .along p q hpc hl (.inr (.inr ⟨u, rfl, hheld, hfree⟩)) rfl rfl hp hstage hstatus hreports hq

/-- The places of a thread, gone through once. -/
theorem go_move (hs : s.go t = some s') : Move s s' t := by
  cases hpc : s.pc t with
  | createLock detached =>
    rw [State.go, hpc] at hs
    dsimp only at hs
    split at hs
    · cases hs
      exact .along _ (.createInit detached) hpc ⟨fun _ hc => hc, rfl, rfl, fun _ hw => hw, rfl, rfl, rfl⟩ (.inl ⟨rfl, rfl⟩) rfl rfl
        nofun rfl rfl (fun _ => rfl) rfl
    · cases hs
  | createUnlock child =>
    rw [State.go, hpc] at hs
    cases hs
    exact .along _ (.createWait child) hpc ⟨fun _ hc => hc, rfl, rfl, fun _ hw => hw, rfl, rfl, rfl⟩ (.inl ⟨rfl, rfl⟩) rfl rfl
      nofun rfl rfl (fun _ => rfl) rfl
  | createWait | createRelock | registerLock | finishLock | finishRelock | markLock | joinRelock | unmarkLock =>
    rw [State.go, hpc] at hs
    exact .lock hs hpc ⟨fun _ hc => hc, rfl, rfl, fun _ hw => hw, rfl, rfl, rfl⟩ nofun rfl rfl (fun _ => rfl) rfl rfl rfl
  | joinLock joinee =>
    rw [State.go, hpc] at hs
    exact .lock hs hpc ⟨fun _ hc => hc, rfl, rfl, nofun, rfl, rfl, rfl⟩ nofun rfl rfl (fun _ => rfl) rfl rfl rfl
  | createLoop child =>
    rw [State.go, hpc] at hs
    dsimp only at hs
    split at hs
    · rename_i hstatus
      cases hs
      exact .createSleep child hpc hstatus rfl
    · cases hs
      exact .along _ (.createDone child) hpc ⟨fun _ hc => hc, rfl, rfl, fun _ hw => hw, rfl, rfl, rfl⟩ (.inl ⟨rfl, rfl⟩) rfl rfl
        nofun rfl rfl (fun _ => rfl) rfl
  | createDone child =>
    rw [State.go, hpc] at hs
    cases hs
    exact .unlock hpc ⟨nofun, rfl, rfl, fun _ hw => hw, rfl, rfl, rfl⟩ nofun rfl rfl (fun _ => rfl) rfl rfl rfl
  | registerUnlock | markUnlock | joinUnlock | unmarkUnlock =>
    rw [State.go, hpc] at hs
    cases hs
    exact .unlock hpc ⟨fun _ hc => hc, rfl, rfl, fun _ hw => hw, rfl, rfl, rfl⟩ nofun rfl rfl (fun _ => rfl) rfl rfl rfl
  | register =>
    rw [State.go, hpc] at hs
    cases hs
    exact .register hpc rfl
  | finishStore =>
    rw [State.go, hpc] at hs
    cases hs
    exact .store _ _ _ hpc rfl ⟨fun _ hc => hc, rfl, rfl, fun _ hw => hw, rfl, rfl, rfl⟩ rfl rfl (.inr rfl) rfl rfl rfl rfl rfl rfl
  | mark | unmark =>
    rw [State.go, hpc] at hs
    cases hs
    exact .store _ _ _ hpc rfl ⟨fun _ hc => hc, rfl, rfl, fun _ hw => hw, rfl, rfl, rfl⟩ rfl rfl (.inl rfl) rfl rfl rfl rfl rfl rfl
  | registerSignal =>
    rw [State.go, hpc] at hs
    cases hs
    exact .signal _ _ hpc (.inl ⟨rfl, rfl⟩) rfl
  | finishSignal =>
    rw [State.go, hpc] at hs
    cases hs
    exact .signal _ _ hpc (.inr ⟨rfl, rfl⟩) rfl
  | finishCheck =>
    rw [State.go, hpc] at hs
    dsimp only at hs
    split at hs
    · rename_i hdetached
      cases hs
      exact .check _ hpc rfl (.inl ⟨rfl, .inl hdetached⟩)
    · split at hs
      · rename_i hnone
        cases hs
        exact .check _ hpc rfl (.inl ⟨rfl, .inr hnone⟩)
      · rename_i joiner hjoiner
        cases hs
        exact .check _ hpc rfl (.inr ⟨joiner, hjoiner, rfl⟩)
  | finishLoop =>
    rw [State.go, hpc] at hs
    dsimp only at hs
    split at hs
    · rename_i hstatus
      cases hs
      exact .leave hpc hstatus rfl
    · cases hs
      exact .unlock hpc ⟨fun _ hc => hc, rfl, rfl, fun _ hw => hw, rfl, rfl, rfl⟩ nofun rfl rfl (fun _ => rfl) rfl rfl rfl
  | joinLoop joinee =>
    rw [State.go, hpc] at hs
    dsimp only at hs
    split at hs
    · rename_i hstatus
      cases hs
      exact .take joinee hpc hstatus rfl
    · rename_i hstatus
      cases hs
      exact .joinSleep joinee hpc hstatus rfl
  | joinTake joinee =>
    rw [State.go, hpc] at hs
    cases hs
    exact .taken joinee hpc rfl
  | absent | program | createInit | createSleep | finishSleep | failed | joinSleep | joinDone =>
    rw [State.go, hpc] at hs
    cases hs

/-- The thread `t` goes on without a change of its fields or of how far it has come. -/
theorem Inv.goOn (h : Inv s) (hpc : s.pc t = p) (hl : Like p q) (hm : Mutexes s s' t p q)
    (hpc' : s'.pc = Function.update s.pc t q) (hthread : s'.thread = s.thread) (hp : p ≠ .absent) (hstage : q.stage = p.stage)
    (hstatus : q.status = p.status) : Inv s' := by
  have hself := (h.ok t).status
  rw [hpc] at hself
  refine h.own (s.thread t) hpc hl hm hpc' (by rw [hthread, Function.update_eq_self]) ⟨rfl, rfl⟩ (fun _ => rfl)
    ((hself hp).trans hstatus.symm) ⟨hp, by rw [hstage]; exact Pc.stage_ne_absent hp⟩ (fun hf => hstage.trans hf) fun a ha he => ?_
  rw [hstage, ← hpc] at he
  exact h.joiner t a ha he

theorem Inv.unlock (h : Inv s) (hpc : s.pc t = p) (hl : Like p q) (hp : p ≠ .absent) (hstage : q.stage = p.stage)
    (hstatus : q.status = p.status) (hheld : p.holds t = some u) (hfree : q.holds t = none) : Inv (s.unlockThread t u q) :=
  h.goOn hpc hl (.inr (.inr ⟨u, rfl, hheld, hfree⟩)) rfl rfl hp hstage hstatus

/-- A wakeup changes nothing but where a thread sleeps. -/
theorem wake_like (hp : p.isFailed = false) : Like p (p.wake u t) ∧ (p.wake u t).stage = p.stage ∧ (p.wake u t).status = p.status ∧
    (p.wake u t).holds t = p.holds t := by
  have hrefl : Like p p := ⟨fun _ h => h, rfl, rfl, fun _ h => h, rfl, rfl, hp⟩
  cases p with
  | createSleep c =>
    rw [Pc.wake]
    split
    · exact ⟨⟨fun _ h => h, rfl, rfl, fun _ h => h, rfl, rfl, rfl⟩, rfl, rfl, rfl⟩
    · exact ⟨hrefl, rfl, rfl, rfl⟩
  | joinSleep c =>
    rw [Pc.wake]
    split
    · exact ⟨⟨fun _ h => h, rfl, rfl, fun _ h => h, rfl, rfl, rfl⟩, rfl, rfl, rfl⟩
    · exact ⟨hrefl, rfl, rfl, rfl⟩
  | finishSleep =>
    rw [Pc.wake]
    split
    · exact ⟨⟨fun _ h => h, rfl, rfl, fun _ h => h, rfl, rfl, rfl⟩, rfl, rfl, rfl⟩
    · exact ⟨hrefl, rfl, rfl, rfl⟩
  | _ => exact ⟨hrefl, rfl, rfl, rfl⟩

theorem wake_eq_absent : p.wake u t = .absent ↔ p = .absent := by
  cases p with
  | createSleep | joinSleep | finishSleep =>
    rw [Pc.wake]
    split <;> exact iff_of_false (fun h => by cases h) fun h => by cases h
  | _ => exact Iff.rfl

theorem Inv.broadcast (h : Inv s) (u : Nat) : Inv (s.signalThread u) := by
  have hwake : ∀ a, Like (s.pc a) ((s.pc a).wake u a) ∧ ((s.pc a).wake u a).stage = (s.pc a).stage ∧
      ((s.pc a).wake u a).status = (s.pc a).status ∧ ((s.pc a).wake u a).holds a = (s.pc a).holds a :=
    fun a => wake_like (h.ok a).notFailed
  have hstage : ∀ a, ((s.signalThread u).pc a).stage = (s.pc a).stage := fun a => (hwake a).2.1
  refine ⟨fun a => ?_, fun v a hv => ?_, fun v a b ha hb => ?_, fun v a hv he => ?_⟩
  · have hok := h.ok a
    obtain ⟨hl, -, hstatus, hholds⟩ := hwake a
    refine ⟨fun hp => ?_, fun v hv => hok.holds v (hholds ▸ hv), fun c hc => ?_, fun v hv => ?_, fun v hv hb => ?_, fun v hv => ?_,
      fun v r hr => ?_, hl.notFailed, fun hp => hok.slot fun heq => hp (wake_eq_absent.mpr heq)⟩
    · exact (hok.status fun heq => hp (wake_eq_absent.mpr heq)).trans hstatus.symm
    · rw [hstage]
      exact hok.child c (hl.child c hc)
    · rw [hstage]
      exact hok.joinee v (hl.joinee ▸ hv)
    · exact hok.before v (hl.joinee ▸ hv) (hl.before ▸ hb)
    · rw [hstage]
      exact hok.takes v (hl.takes ▸ hv)
    · rw [hstage]
      exact hok.took v r (hl.took ▸ hr)
  · exact (hwake a).2.2.2.trans (h.owner v a hv)
  · exact h.alone v a b ((hwake a).1.joinee ▸ ha) ((hwake b).1.joinee ▸ hb)
  · rw [hstage] at he
    exact (hwake a).1.waits v (h.joiner v a hv he)

/-- Only the place of `t` changes. -/
theorem keeps_setPc (hpresent : q.stage ≠ .absent) (hfin : (s.pc t).stage = .finished → q.stage = .finished) :
    Keeps s (s.setPc t q) t q :=
  ⟨rfl, fun _ _ _ => Iff.rfl, fun _ _ => rfl, fun _ _ => rfl, fun _ _ _ _ => rfl, fun _ _ => rfl, hpresent, hfin⟩

theorem Inv.ok_at (h : Inv s) (hpc : s.pc t = p) : Ok s t p := hpc ▸ h.ok t

/-- Who holds the mutex of a thread that has the status of a finished one knows that it is past its last look at its joiner. -/
theorem Inv.finished_of_held (h : Inv s) (hstage : (s.pc u).stage ≠ .absent) (hstatus : (s.thread u).status = .waitForReaping)
    (hheld : s.mutex u = some t) (hne : u ≠ t) : (s.pc u).stage = .finished := by
  have hok := h.ok u
  have hnot : ∀ v, s.mutex u = some v → v = t := fun v hv => Option.some.inj (hv.symm.trans hheld)
  have hp : s.pc u ≠ .absent := by
    intro habs
    rw [habs] at hstage
    exact hstage rfl
  rw [hok.status hp] at hstatus
  cases hpc : s.pc u with
  | finishLoop | finishSleep | finishRelock | failed => rfl
  | finishCheck | finishSignal =>
    rw [hpc] at hok
    exact absurd (hnot u (hok.holds u rfl)) hne
  | _ =>
    rw [hpc] at hstatus
    cases hstatus

/-- A field that the new record of `u` does not change. -/
theorem kept_field {α : Type} (s : State) (u : Nat) (info : ThreadT) (f : ThreadT → α) (hf : f info = f (s.thread u)) (v : Nat) :
    f (Function.update s.thread u info v) = f (s.thread v) := by
  by_cases hvu : v = u
  · rw [hvu, Function.update_self, hf]
  · rw [Function.update_of_ne hvu]

/-- Who looks at its joiner where another thread was. -/
theorem Keeps.early (h : Keeps s s' t p) (ht : (s.pc t).stage = p.stage) {v : Nat} (he : (s'.pc v).stage.early = true) :
    (s.pc v).stage.early = true := by
  rw [h.pc] at he
  by_cases hvt : v = t
  · rw [hvt, Function.update_self, ← ht] at he
    rw [hvt]
    exact he
  · rwa [Function.update_of_ne hvt] at he

theorem Inv.take (h : Inv s) (hpc : s.pc t = .joinLoop u) (hstatus : (s.thread u).status = .waitForReaping) :
    Inv (s.setPc t (.joinTake u)) := by
  have hold := h.ok_at hpc
  have hu := hold.joinee u rfl
  have hfin : (s.pc u).stage = .finished := h.finished_of_held hu.1 hstatus (hold.holds u rfl) hu.2.1
  have hk : Keeps s (s.setPc t (.joinTake u)) t (.joinTake u) := by
    refine keeps_setPc (fun heq => by cases heq) fun hf => ?_
    rw [hpc] at hf
    cases hf
  refine h.turn hk ⟨fun _ => hold.status fun heq => ?_, fun v hv => hold.holds v hv, fun c hc => ?_, fun v hv => ?_,
    fun v hv _ => hold.before v hv rfl, fun v hv => ?_, fun v r hr => ?_, rfl, fun _ => hold.slot fun heq => ?_⟩ (fun v hv => ?_)
    (fun v b hb hv hsb => ?_) fun v a hv he => ?_
  · cases heq
  · cases hc
  · have hj := hold.joinee v hv
    exact ⟨hk.stage_ne hj.1, hj.2⟩
  · cases hv
    exact hk.stage_finished hfin
  · cases hr
  · cases heq
  · have hheld := h.owner v t hv
    rw [hpc] at hheld
    exact hheld
  · exact hb (h.alone v b t hsb (by rw [hpc]; exact hv))
  · have hearly := hk.early (by rw [hpc]; rfl) he
    have hw := h.joiner v a hv hearly
    by_cases hat : a = t
    · subst hat
      rw [hpc] at hw
      cases hw
      rw [hfin] at hearly
      cases hearly
    · rw [hk.pc, Function.update_of_ne hat]
      exact hw

theorem Inv.sleep (h : Inv s) (hpc : s.pc t = .joinLoop u) :
    Inv ((s.setThread u { s.thread u with joiner := some t }).unlockThread t u (.joinSleep u)) := by
  have hold := h.ok_at hpc
  have hkept {α : Type} := @kept_field α s u { s.thread u with joiner := some t }
  have hreleased : Mutexes s ((s.setThread u { s.thread u with joiner := some t }).unlockThread t u (.joinSleep u)) t (.joinLoop u)
      (.joinSleep u) := .inr (.inr ⟨u, rfl, rfl, rfl⟩)
  have hm := h.mutexes hpc hreleased
  have hk : Keeps s ((s.setThread u { s.thread u with joiner := some t }).unlockThread t u (.joinSleep u)) t (.joinSleep u) := by
    refine ⟨rfl, hm.1, fun v _ => hkept ThreadT.status rfl v, fun v _ => hkept ThreadT.isDetached rfl v,
      fun v a _ _ => hkept ThreadT.hasJoined rfl v, fun v _ => hkept ThreadT.result rfl v, fun heq => ?_, fun hf => ?_⟩
    · cases heq
    · rw [hpc] at hf
      cases hf
  refine h.turn hk ⟨fun _ => (hkept ThreadT.status rfl t).trans (hold.status fun heq => ?_), fun v hv => (hm.2 v).mpr hv,
    fun c hc => ?_, fun v hv => ?_, fun v hv _ => (hkept ThreadT.hasJoined rfl v).trans (hold.before v hv rfl), fun v hv => ?_,
    fun v r hr => ?_, rfl, fun _ => hold.slot fun heq => ?_⟩ (fun v hv => (hm.2 v).mp hv) (fun v b hb hv hsb => ?_) fun v a hv he => ?_
  · cases heq
  · cases hc
  · have hj := hold.joinee v hv
    exact ⟨hk.stage_ne hj.1, hj.2.1, (hkept ThreadT.isDetached rfl v).trans hj.2.2⟩
  · cases hv
  · cases hr
  · cases heq
  · exact hb (h.alone v b t hsb (by rw [hpc]; exact hv))
  · have hearly := hk.early (by rw [hpc]; rfl) he
    have hv : (Function.update s.thread u { s.thread u with joiner := some t } v).joiner = some a := hv
    rw [hk.pc]
    by_cases hvu : v = u
    · rw [hvu, Function.update_self] at hv
      cases hv
      rw [Function.update_self, hvu]
      rfl
    · rw [Function.update_of_ne hvu] at hv
      have hw := h.joiner v a hv hearly
      by_cases hat : a = t
      · rw [hat, hpc] at hw
        exact absurd (Option.some.inj hw).symm hvu
      · rw [Function.update_of_ne hat]
        exact hw

theorem Inv.taken (h : Inv s) (hpc : s.pc t = .joinTake u) :
    Inv ((s.setThread u { s.thread u with hasJoined := true }).setPc t (.joinUnlock u (s.thread u).result)) := by
  have hold := h.ok_at hpc
  have hkept {α : Type} := @kept_field α s u { s.thread u with hasJoined := true }
  have hfin := hold.takes u rfl
  have hk : Keeps s ((s.setThread u { s.thread u with hasJoined := true }).setPc t (.joinUnlock u (s.thread u).result)) t
      (.joinUnlock u (s.thread u).result) := by
    refine ⟨rfl, fun _ _ _ => Iff.rfl, fun v _ => hkept ThreadT.status rfl v, fun v _ => hkept ThreadT.isDetached rfl v,
      fun v a ha hv => ?_, fun v _ => hkept ThreadT.result rfl v, fun heq => ?_, fun hf => ?_⟩
    · have hvu : v ≠ u := by
        rintro rfl
        exact ha (h.alone v a t hv (by rw [hpc]; rfl))
      exact congrArg ThreadT.hasJoined (Function.update_of_ne hvu _ _)
    · cases heq
    · rw [hpc] at hf
      cases hf
  refine h.turn hk ⟨fun _ => (hkept ThreadT.status rfl t).trans (hold.status fun heq => ?_), fun v hv => hold.holds v hv,
    fun c hc => ?_, fun v hv => ?_, fun v hv hb => ?_, fun v hv => ?_, fun v r hr => ?_, rfl, fun _ => hold.slot fun heq => ?_⟩
    (fun v hv => ?_) (fun v b hb hv hsb => ?_) fun v a hv he => ?_
  · cases heq
  · cases hc
  · have hj := hold.joinee v hv
    exact ⟨hk.stage_ne hj.1, hj.2.1, (hkept ThreadT.isDetached rfl v).trans hj.2.2⟩
  · cases hb
  · cases hv
  · cases hr
    exact ⟨hk.stage_finished hfin, hkept ThreadT.result rfl _⟩
  · cases heq
  · have hheld := h.owner v t hv
    rw [hpc] at hheld
    exact hheld
  · exact hb (h.alone v b t hsb (by rw [hpc]; exact hv))
  · have hearly := hk.early (by rw [hpc]; rfl) he
    have hw := h.joiner v a ((hkept ThreadT.joiner rfl v).symm.trans hv) hearly
    have hat : a ≠ t := by
      rintro rfl
      rw [hpc] at hw
      cases hw
    rw [hk.pc, Function.update_of_ne hat]
    exact hw

/-- The thread `t` begins or ends a call, and holds no mutex. -/
theorem Inv.call (h : Inv s) (hpc : s.pc t = p)
    (hp : p.stage = .running ∧ p.status = .running ∧ p.waits = none ∧ p.holds t = none)
    (hq : q.stage = .running ∧ q.status = .running ∧ q.takes = none ∧ q.took = none ∧ q.holds t = none ∧ q.isFailed = false)
    (hchild : ∀ c, q.child = some c → (s.pc c).stage ≠ .absent)
    (hjoinee : ∀ u, q.joinee = some u → (s.pc u).stage ≠ .absent ∧ u ≠ t ∧ (s.thread u).isDetached = false ∧
      (s.thread u).hasJoined = false ∧ ∀ b, (s.pc b).joinee ≠ some u) : Inv (s.setPc t q) := by
  obtain ⟨hstage, hstatus, hwaits, hfree⟩ := hp
  obtain ⟨hqstage, hqstatus, htakes, htook, hholds, hfailed⟩ := hq
  have hold := h.ok_at hpc
  have hpresent : p ≠ .absent := by
    rintro rfl
    cases hstage
  have hk : Keeps s (s.setPc t q) t q := by
    refine keeps_setPc (fun heq => ?_) fun hf => ?_
    · rw [hqstage] at heq
      cases heq
    · rw [hpc, hstage] at hf
      cases hf
  refine h.turn hk ⟨fun _ => (hold.status hpresent).trans (hstatus.trans hqstatus.symm), fun v hv => ?_, fun c hc => hk.stage_ne (hchild c hc),
    fun v hv => ?_, fun v hv _ => (hjoinee v hv).2.2.2.1, fun v hv => ?_, fun v r hr => ?_, hfailed, fun _ => hold.slot hpresent⟩
    (fun v hv => ?_) (fun v b _ hv => (hjoinee v hv).2.2.2.2 b) fun v a hv he => ?_
  · rw [hholds] at hv
    cases hv
  · obtain ⟨hjoined, hne, hdet, -⟩ := hjoinee v hv
    exact ⟨hk.stage_ne hjoined, hne, hdet⟩
  · rw [htakes] at hv
    cases hv
  · rw [htook] at hr
    cases hr
  · have hheld := h.owner v t hv
    rw [hpc, hfree] at hheld
    cases hheld
  · have hw := h.joiner v a hv (hk.early (by rw [hpc, hstage, hqstage]) he)
    have hat : a ≠ t := by
      rintro rfl
      rw [hpc, hwaits] at hw
      cases hw
    rw [hk.pc, Function.update_of_ne hat]
    exact hw

/-- A new thread, before its creator goes on. -/
theorem Inv.start (h : Inv s) (hu : s.pc u = .absent) (hslot : u ∈ State.slots) (detached : Bool) :
    Inv ((s.setThread u ⟨.starting, none, false, detached, (s.thread u).result⟩).setPc u .registerLock) := by
  have habsent : (s.pc u).stage = .absent := by rw [hu]; rfl
  have hother : ∀ v, v ≠ u → Function.update s.thread u ⟨.starting, none, false, detached, (s.thread u).result⟩ v = s.thread v :=
    fun v hv => Function.update_of_ne hv _ _
  have hk : Keeps s ((s.setThread u ⟨.starting, none, false, detached, (s.thread u).result⟩).setPc u .registerLock) u .registerLock := by
    refine ⟨rfl, fun _ _ _ => Iff.rfl, fun v hv => congrArg ThreadT.status (hother v hv), fun v hv => ?_, fun v a _ hv => ?_,
      fun v hv => ?_, fun heq => ?_, fun hf => ?_⟩
    · refine congrArg ThreadT.isDetached (hother v ?_)
      rintro rfl
      exact hv habsent
    · refine congrArg ThreadT.hasJoined (hother v ?_)
      rintro rfl
      exact ((h.ok a).joinee v hv).1 habsent
    · refine congrArg ThreadT.result (hother v ?_)
      rintro rfl
      rw [habsent] at hv
      cases hv
    · cases heq
    · rw [habsent] at hf
      cases hf
  refine h.turn hk ⟨fun _ => congrArg ThreadT.status (Function.update_self u _ s.thread), fun v hv => ?_, fun v hv => ?_, fun v hv => ?_,
    fun v hv => ?_, fun v hv => ?_, fun v r hr => ?_, rfl, fun _ => hslot⟩ (fun v hv => ?_) (fun v b _ hv => ?_) fun v a hv he => ?_
  · cases hv
  · cases hv
  · cases hv
  · cases hv
  · cases hv
  · cases hr
  · have hheld := h.owner v u hv
    rw [hu] at hheld
    cases hheld
  · cases hv
  · have hv : (Function.update s.thread u ⟨.starting, none, false, detached, (s.thread u).result⟩ v).joiner = some a := hv
    have hvu : v ≠ u := by
      rintro rfl
      rw [Function.update_self] at hv
      cases hv
    rw [hk.pc, Function.update_of_ne hvu] at he
    rw [hother v hvu] at hv
    have hw := h.joiner v a hv he
    have hau : a ≠ u := by
      rintro rfl
      rw [hu] at hw
      cases hw
    rw [hk.pc, Function.update_of_ne hau]
    exact hw

theorem quiet_idle (hq : p.quiet = true) : p.holds t = none ∧ p.child = none ∧ p.takes = none ∧ p.took = none := by
  cases p with
  | absent | program | joinSleep | finishSleep => exact ⟨rfl, rfl, rfl, rfl⟩
  | _ => cases hq

theorem reaps_iff : s.reaps t a = true ↔ (a ≠ t ∧ s.pc a = .finishSleep) ∧ (s.thread a).hasJoined = true := by
  rw [State.reaps, Bool.and_eq_true, decide_eq_true_eq]

/-- Who is in `thread_join` at the end of an epoch sleeps, and its joinee goes on into the next. -/
theorem Inv.not_reaped (h : Inv s) (hquiet : ∀ a, (s.pc a).quiet = true) (hj : (s.pc a).joinee = some u) :
    s.pc a = .joinSleep u ∧ s.reaps t u = false := by
  have hq := hquiet a
  cases hpc : s.pc a with
  | joinSleep v =>
    rw [hpc] at hj
    cases hj
    refine ⟨rfl, Bool.eq_false_iff.mpr fun hr => ?_⟩
    have hbefore := (h.ok_at hpc).before u rfl rfl
    rw [(reaps_iff.mp hr).2] at hbefore
    cases hbefore
  | absent | program | finishSleep =>
    rw [hpc] at hj
    cases hj
  | _ =>
    rw [hpc] at hq
    cases hq

/-- The end of an epoch, where no thread is in a call except asleep. -/
theorem Inv.epochBegin (h : Inv s) (hquiet : ∀ a, (s.pc a).quiet = true) (t : Nat) : Inv (s.epochBegin t) := by
  have hthread : ∀ a, s.reaps t a = false → (s.epochBegin t).thread a = s.thread a := fun a ha => by
    simp only [State.epochBegin, ha, Bool.false_eq_true, if_false]
  have hpc : ∀ a, s.reaps t a = false → (s.epochBegin t).pc a = s.pc a := fun a ha => by
    simp only [State.epochBegin, ha, Bool.false_eq_true, if_false]
  have hgone : ∀ a, s.reaps t a = true → (s.epochBegin t).pc a = .absent := fun a ha => by
    simp only [State.epochBegin, ha, if_true]
  refine ⟨fun a => ?_, fun u a hu => ?_, fun u a b ha hb => ?_, fun u a hu he => ?_⟩
  · cases ha : s.reaps t a with
    | true =>
      rw [hgone a ha]
      refine ⟨fun hp => absurd rfl hp, fun v hv => ?_, fun v hv => ?_, fun v hv => ?_, fun v hv => ?_, fun v hv => ?_, fun v r hr => ?_, rfl,
        fun hp => absurd rfl hp⟩
      · cases hv
      · cases hv
      · cases hv
      · cases hv
      · cases hv
      · cases hr
    | false =>
      have hok := h.ok a
      obtain ⟨-, hchild, htakes, htook⟩ := quiet_idle (hquiet a) (t := a)
      rw [hpc a ha]
      refine ⟨fun hp => (congrArg ThreadT.status (hthread a ha)).trans (hok.status hp), hok.holds, fun c hc => ?_, fun u hu => ?_,
        fun u hu hb => ?_, fun u hu => ?_, fun u r hr => ?_, hok.notFailed, hok.slot⟩
      · rw [hchild] at hc
        cases hc
      · rw [hpc u (h.not_reaped hquiet hu).2, hthread u (h.not_reaped hquiet hu).2]
        exact hok.joinee u hu
      · rw [hthread u (h.not_reaped hquiet hu).2]
        exact hok.before u hu hb
      · rw [htakes] at hu
        cases hu
      · rw [htook] at hr
        cases hr
  · have hheld := h.owner u a hu
    rw [(quiet_idle (hquiet a)).1] at hheld
    cases hheld
  · have hback : ∀ a u, ((s.epochBegin t).pc a).joinee = some u → (s.pc a).joinee = some u := by
      intro a u hau
      cases ha : s.reaps t a with
      | true =>
        rw [hgone a ha] at hau
        cases hau
      | false =>
        rw [hpc a ha] at hau
        exact hau
    exact h.alone u a b (hback a u ha) (hback b u hb)
  · cases hr : s.reaps t u with
    | true =>
      rw [hgone u hr] at he
      cases he
    | false =>
      rw [hpc u hr] at he
      rw [hthread u hr] at hu
      have hw := h.joiner u a hu he
      cases ha : s.reaps t a with
      | true =>
        rw [(reaps_iff.mp ha).1.2] at hw
        cases hw
      | false =>
        rw [hpc a ha]
        exact hw

/-- Who waits for a thread that has not looked at its joiner yet has marked itself. -/
theorem Inv.joining (h : Inv s) (hj : (s.thread u).joiner = some a) (he : (s.pc u).stage.early = true) :
    (s.thread a).status = .joining := by
  have hw := h.joiner u a hj he
  have hok := h.ok a
  cases hpc : s.pc a with
  | joinLoop | joinSleep | joinRelock =>
    rw [hpc] at hok
    exact hok.status fun heq => by cases heq
  | _ =>
    rw [hpc] at hw
    cases hw

/-- A step of the thread within a call. -/
theorem Inv.go (h : Inv s) (hs : s.go t = some s') : Inv s' := by
  cases go_move hs with
  | along p q hpc hl hm hpc' hthread hp hstage hstatus => exact h.goOn hpc hl hm hpc' hthread hp hstage hstatus
  | createSleep child hpc _ hs' =>
    subst hs'
    exact h.unlock hpc ⟨fun _ hc => hc, rfl, rfl, fun _ hw => hw, rfl, rfl, rfl⟩ nofun rfl rfl rfl rfl
  | register hpc hs' =>
    subst hs'
    exact h.own _ (q := .registerSignal) hpc ⟨fun _ hc => hc, rfl, rfl, fun _ hw => hw, rfl, rfl, rfl⟩ (.inl ⟨rfl, rfl⟩) rfl rfl
      ⟨rfl, rfl⟩ nofun rfl ⟨nofun, nofun⟩ nofun nofun
  | store p q info hpc hs' hl hholds hstage hq hdetached hjoined hjoiner hstatus =>
    subst hs'
    have hp : p ≠ .absent := by
      rintro rfl
      cases hstage
    have hrunning : p.stage ≠ .finished := by
      rw [hstage]
      nofun
    refine h.own info hpc hl (.inl ⟨rfl, hholds⟩) rfl rfl ⟨hdetached, hjoined⟩ (fun hf => absurd hf hrunning) hstatus ⟨hp, ?_⟩
      (fun hf => absurd hf hrunning) fun a ha _ => h.joiner t a (hjoiner ▸ ha) (by rw [hpc, hstage]; rfl)
    rcases hq with hq | hq <;> rw [hq] <;> nofun
  | signal p q hpc hq hs' =>
    subst hs'
    have hwake : (s.signalThread t).pc t = p := by
      rcases hq with ⟨rfl, -⟩ | ⟨rfl, -⟩ <;> exact congrArg (Pc.wake t t) hpc
    have hjoiner := (h.broadcast t).joiner t
    rw [hwake] at hjoiner
    have hstatus := (h.ok_at hpc).status
    rcases hq with ⟨rfl, rfl⟩ | ⟨rfl, rfl⟩
    · exact (h.broadcast t).own (s.thread t) (q := .registerUnlock) hwake ⟨fun _ hc => hc, rfl, rfl, fun _ hw => hw, rfl, rfl, rfl⟩
        (.inl ⟨rfl, rfl⟩) rfl (Function.update_eq_self t s.thread).symm ⟨rfl, rfl⟩ (fun _ => rfl) (hstatus nofun) ⟨nofun, nofun⟩
        nofun fun a ha _ => hjoiner a ha rfl
    · exact (h.broadcast t).own (s.thread t) (q := .finishLoop) hwake ⟨fun _ hc => hc, rfl, rfl, fun _ hw => hw, rfl, rfl, rfl⟩
        (.inl ⟨rfl, rfl⟩) rfl (Function.update_eq_self t s.thread).symm ⟨rfl, rfl⟩ (fun _ => rfl) (hstatus nofun) ⟨nofun, nofun⟩
        nofun fun _ _ => nofun
  | check q hpc hs' hq =>
    subst hs'
    -- past the check the joiner does not matter any more
    have hgo : ∀ {q : Pc}, q = .finishSignal ∨ q = .finishLoop → Inv (s.setPc t q) := by
      intro q hq
      have hstatus : (s.thread t).status = .waitForReaping := (h.ok_at hpc).status nofun
      refine h.own (s.thread t) hpc ?_ (.inl ⟨rfl, ?_⟩) rfl (Function.update_eq_self t s.thread).symm ⟨rfl, rfl⟩ (fun _ => rfl)
        (hstatus.trans ?_) ⟨nofun, ?_⟩ nofun fun a ha he => ?_
      · rcases hq with rfl | rfl <;> exact ⟨fun _ hc => hc, rfl, rfl, fun _ hw => hw, rfl, rfl, rfl⟩
      · rcases hq with rfl | rfl <;> rfl
      · rcases hq with rfl | rfl <;> rfl
      · rcases hq with rfl | rfl <;> nofun
      · rcases hq with rfl | rfl <;> cases he
    rcases hq with ⟨rfl, -⟩ | ⟨joiner, hjoiner, rfl⟩
    · exact hgo (.inr rfl)
    · rw [if_pos (h.joining hjoiner (by rw [hpc]; rfl))]
      exact hgo (.inl rfl)
  | leave hpc hleaves =>
    rw [(h.ok_at hpc).status nofun] at hleaves
    rcases hleaves with heq | heq <;> cases heq
  | take joinee hpc hstatus hs' =>
    subst hs'
    exact h.take hpc hstatus
  | joinSleep joinee hpc _ hs' =>
    subst hs'
    exact h.sleep hpc
  | taken joinee hpc hs' =>
    subst hs'
    exact h.taken hpc

theorem Inv.absent_of_not_mem (h : Inv s) (ha : a ∉ State.slots) : s.pc a = .absent :=
  Classical.not_not.mp fun hp => ha ((h.ok a).slot hp)

theorem Inv.quiet (h : Inv s) (hq : (State.slots.all fun u => (s.pc u).quiet) = true) (a : Nat) : (s.pc a).quiet = true := by
  by_cases ha : a ∈ State.slots
  · exact List.all_eq_true.mp hq a ha
  · rw [h.absent_of_not_mem ha]
    rfl

theorem Inv.joinable (h : Inv s) (hj : s.joinable t u = true) : (s.pc u).stage ≠ .absent ∧ u ≠ t ∧
    (s.thread u).isDetached = false ∧ (s.thread u).hasJoined = false ∧ ∀ b, (s.pc b).joinee ≠ some u := by
  simp only [State.joinable, Bool.and_eq_true, decide_eq_true_eq, Bool.not_eq_true', List.all_eq_true] at hj
  obtain ⟨⟨⟨⟨-, hne, hp⟩, hdet⟩, hjoined⟩, hall⟩ := hj
  refine ⟨Pc.stage_ne_absent hp, hne, hdet, hjoined, fun b hb => ?_⟩
  by_cases hslot : b ∈ State.slots
  · exact hall b hslot hb
  · rw [h.absent_of_not_mem hslot] at hb
    cases hb

theorem Inv.exec {act : Act} (h : Inv s) (hs : s.exec act = some s') : Inv s' := by
  cases act with
  | create t detached =>
    rw [State.exec] at hs
    split at hs
    · rename_i hpc
      cases hs
      refine h.call hpc ⟨rfl, rfl, rfl, rfl⟩ ⟨rfl, rfl, rfl, rfl, rfl, rfl⟩ (fun c hc => ?_) fun u hu => ?_
      · cases hc
      · cases hu
    · cases hs
  | spawn t child =>
    rw [State.exec] at hs
    cases hpc : s.pc t with
    | createInit detached =>
      rw [hpc] at hs
      dsimp only at hs
      split at hs
      · rename_i hfree
        cases hs
        have hne : t ≠ child := by
          rintro rfl
          rw [hpc] at hfree
          cases hfree.2
        refine (h.start hfree.2 hfree.1 detached).call ((Function.update_of_ne hne _ _).trans hpc) ⟨rfl, rfl, rfl, rfl⟩
          ⟨rfl, rfl, rfl, rfl, rfl, rfl⟩ (fun c hc => ?_) fun u hu => ?_
        · cases hc
          have hchild : ((s.setThread child ⟨.starting, none, false, detached, (s.thread child).result⟩).setPc child .registerLock).pc
              child = .registerLock := Function.update_self child _ s.pc
          rw [hchild]
          exact fun heq => by cases heq
        · cases hu
      · cases hs
    | _ =>
      rw [hpc] at hs
      cases hs
  | exit t result =>
    rw [State.exec] at hs
    split at hs
    · rename_i hpc
      cases hs
      refine h.call hpc.1 ⟨rfl, rfl, rfl, rfl⟩ ⟨rfl, rfl, rfl, rfl, rfl, rfl⟩ (fun c hc => ?_) fun u hu => ?_
      · cases hc
      · cases hu
    · cases hs
  | join t joinee =>
    rw [State.exec] at hs
    split at hs
    · rename_i hpc
      cases hs
      refine h.call hpc.1 ⟨rfl, rfl, rfl, rfl⟩ ⟨rfl, rfl, rfl, rfl, rfl, rfl⟩ (fun c hc => ?_) fun u hu => ?_
      · cases hc
      · cases hu
        exact h.joinable hpc.2
    · cases hs
  | go t => exact h.go hs
  | wake t =>
    rw [State.exec, Option.map_eq_some_iff] at hs
    obtain ⟨u, hu, rfl⟩ := hs
    obtain ⟨hl, hstage, hstatus, hholds⟩ := wake_like (u := u) (t := t) (h.ok t).notFailed
    refine h.goOn rfl hl (.inl ⟨rfl, hholds⟩) rfl rfl (fun heq => ?_) hstage hstatus
    rw [heq] at hu
    cases hu
  | ret t joinee result =>
    rw [State.exec] at hs
    split at hs
    · rename_i hpc
      cases hs
      refine h.call hpc ⟨rfl, rfl, rfl, rfl⟩ ⟨rfl, rfl, rfl, rfl, rfl, rfl⟩ (fun c hc => ?_) fun u hu => ?_
      · cases hc
      · cases hu
    · cases hs
  | commit t =>
    rw [State.exec] at hs
    split at hs
    · rename_i hq
      cases hs
      exact h.epochBegin (h.quiet hq.2) t
    · cases hs

theorem State.Began.inv (h : s.Began) : Inv s := by
  have hpc : ∀ a, s.pc a = .program ∧ a = 0 ∨ s.pc a = .absent := fun a => by
    by_cases ha : a = 0
    · exact .inl ⟨ha ▸ h.pc, ha⟩
    · exact .inr (h.absent a ha)
  have hidle : ∀ a, (s.pc a).child = none ∧ (s.pc a).joinee = none ∧ (s.pc a).takes = none ∧ (s.pc a).took = none ∧
      (s.pc a).holds a = none ∧ (s.pc a).isFailed = false := fun a => by
    rcases hpc a with ⟨heq, -⟩ | heq <;> rw [heq] <;> exact ⟨rfl, rfl, rfl, rfl, rfl, rfl⟩
  refine ⟨fun a => ?_, fun u a hu => ?_, fun u a b ha hb => ?_, fun u a hu he => ?_⟩
  · obtain ⟨hchild, hjoinee, htakes, htook, hholds, hfailed⟩ := hidle a
    refine ⟨fun hp => ?_, fun v hv => ?_, fun v hv => ?_, fun v hv => ?_, fun v hv => ?_, fun v hv => ?_, fun v r hr => ?_, hfailed,
      fun hp => ?_⟩
    · rcases hpc a with ⟨heq, rfl⟩ | heq
      · rw [heq]
        exact h.status
      · exact absurd heq hp
    · rw [hholds] at hv
      cases hv
    · rw [hchild] at hv
      cases hv
    · rw [hjoinee] at hv
      cases hv
    · rw [hjoinee] at hv
      cases hv
    · rw [htakes] at hv
      cases hv
    · rw [htook] at hr
      cases hr
    · rcases hpc a with ⟨-, rfl⟩ | heq
      · exact List.mem_range.mpr (Nat.succ_pos _)
      · exact absurd heq hp
  · rw [h.mutex] at hu
    cases hu
  · rw [(hidle a).2.1] at ha
    cases ha
  · rcases hpc u with ⟨-, rfl⟩ | heq
    · rw [h.joiner] at hu
      cases hu
    · rw [heq] at he
      cases he

theorem Inv.of_reachable (h : Reachable system s) : Inv s :=
  h.invariant (P := Inv) (fun _ hb => State.Began.inv hb) fun _ _ _ hi hs => hi.exec hs

/-- The initial thread, alone. -/
def single : State := ⟨fun _ => ⟨.running, none, false, false, 0⟩, fun _ => none, none, fun t => if t = 0 then .program else .absent⟩

theorem single_began : single.Began :=
  ⟨rfl, fun _ ht => if_neg ht, rfl, rfl, rfl, fun _ => rfl, rfl⟩

/-- A thread creates another one, and sleeps until it has registered. -/
def creation (t child : Nat) : List Act :=
  [.create t false, .go t, .spawn t child, .go t, .go t, .go t, .go child, .go child, .go child, .go child, .go t, .go t, .go t]

/-- The initial thread sleeps in `thread_join` until the thread that it has created finishes. -/
def joining : List Act :=
  creation 0 1 ++ [.join 0 1, .go 0, .go 0, .go 0, .go 0, .go 0, .exit 1 7, .go 1, .go 1, .go 1]

/-- `assert(current->joiner->status == E_THREAD_JOINING)` never fails. -/
theorem assertion_holds (h : Reachable system s) (t : Nat) : s.pc t ≠ .failed := by
  intro hpc
  have hfailed := ((Inv.of_reachable h).ok_at hpc).notFailed
  cases hfailed

theorem assertion_holds_joining : ∃ s, Reachable system s ∧ s.pc 1 = .finishSignal ∧ s.pc 1 ≠ .failed := by
  have hrun : (joining.foldlM State.exec single).map (fun s => s.pc 1) = some .finishSignal := by decide +kernel
  obtain ⟨s, hs, hpc⟩ := Option.map_eq_some_iff.mp hrun
  have hreach : Reachable system s := .of_foldlM (f := State.exec) (fun _ _ _ _ h => h) (.init single_began) hs
  exact ⟨s, hreach, hpc, assertion_holds hreach 1⟩

/-! ### Results -/

/-- What the start routine of the thread in the slot `u` has returned, from the steps of a run, latest first. -/
def lastResult (u : Nat) : List Act → Option Nat
  | [] => none
  | .exit t result :: past => if t = u then some result else lastResult u past
  | .spawn _ child :: past => if child = u then none else lastResult u past
  | _ :: past => lastResult u past

theorem wake_reports (stored : Nat) : (p.wake u t).reports stored = p.reports stored := by
  cases p with
  | createSleep | joinSleep | finishSleep =>
    rw [Pc.wake]
    split <;> rfl
  | _ => rfl

theorem reports_of_finished (stored : Nat) (h : p.stage = .finished) : p.reports stored = some stored := by
  cases p with
  | finishLoop | finishSleep | finishRelock | failed => rfl
  | _ => cases h

/-- No thread reports what it has not reported before. -/
def Silent (s s' : State) : Prop :=
  ∀ v r, (s'.pc v).reports (s'.thread v).result = some r → (s.pc v).reports (s.thread v).result = some r

/-- A step of the thread `t`, by what `t` does. -/
theorem Silent.of_update (hpc : s.pc t = p) (hpc' : s'.pc = Function.update s.pc t q)
    (hresult : ∀ v, v ≠ t → (s'.thread v).result = (s.thread v).result)
    (hq : q.reports (s'.thread t).result = p.reports (s.thread t).result ∨ q.reports (s'.thread t).result = none) : Silent s s' := by
  intro v r hv
  rw [hpc'] at hv
  by_cases hvt : v = t
  · subst hvt
    rw [Function.update_self] at hv
    rw [hpc]
    rcases hq with hq | hq
    · exact hq.symm.trans hv
    · rw [hq] at hv
      cases hv
  · rw [Function.update_of_ne hvt, hresult v hvt] at hv
    exact hv

theorem Silent.signalThread (s : State) (u : Nat) : Silent s (s.signalThread u) := fun _ _ hv => (wake_reports _).symm.trans hv

theorem Silent.trans {s₁ : State} (h : Silent s s₁) (h' : Silent s₁ s') : Silent s s' := fun v r hv => h v r (h' v r hv)

theorem Silent.go (hs : s.go t = some s') : Silent s s' := by
  cases go_move hs with
  | along p q hpc _ _ hpc' hthread _ _ _ hreports =>
    refine .of_update hpc hpc' (fun v _ => by rw [hthread]) (.inl ?_)
    rw [hthread]
    exact hreports _
  | createSleep child hpc _ hs' =>
    subst hs'
    exact Silent.of_update hpc rfl (fun _ _ => rfl) (.inl rfl)
  | register hpc hs' =>
    subst hs'
    exact Silent.of_update hpc rfl (fun v _ => kept_field s t _ ThreadT.result (by rfl) v) (.inl rfl)
  | store p q info hpc hs' _ _ _ _ _ _ _ _ hreports =>
    subst hs'
    refine Silent.of_update (q := q) hpc rfl (fun v hvt => congrArg ThreadT.result (Function.update_of_ne hvt _ s.thread)) (.inl ?_)
    have hinfo : Function.update s.thread t info t = info := Function.update_self ..
    exact (congrArg (fun x => q.reports (ThreadT.result x)) hinfo).trans hreports
  | signal p q hpc hq hs' =>
    subst hs'
    rcases hq with ⟨rfl, rfl⟩ | ⟨rfl, rfl⟩ <;>
      exact (Silent.signalThread s t).trans (.of_update (congrArg (Pc.wake t t) hpc) rfl (fun _ _ => rfl) (.inl rfl))
  | check q hpc hs' hq =>
    subst hs'
    refine Silent.of_update (q := q) hpc rfl (fun _ _ => rfl) (.inl ?_)
    rcases hq with ⟨rfl, -⟩ | ⟨joiner, -, rfl⟩
    · rfl
    · split <;> rfl
  | leave hpc _ hs' =>
    subst hs'
    exact Silent.of_update (q := .absent) hpc rfl (fun _ _ => rfl) (.inr rfl)
  | take joinee hpc _ hs' =>
    subst hs'
    exact Silent.of_update (q := .joinTake joinee) hpc rfl (fun _ _ => rfl) (.inl rfl)
  | joinSleep joinee hpc _ hs' =>
    subst hs'
    exact Silent.of_update (q := .joinSleep joinee) hpc rfl (fun v _ => kept_field s joinee _ ThreadT.result (by rfl) v) (.inl rfl)
  | taken joinee hpc hs' =>
    subst hs'
    exact Silent.of_update hpc rfl (fun v _ => kept_field s joinee _ ThreadT.result (by rfl) v) (.inl rfl)

/-- What the threads report is what their start routines have returned. -/
def Reported (past : List Act) (s : State) : Prop := ∀ u r, (s.pc u).reports (s.thread u).result = some r → lastResult u past = some r

theorem Reported.of_silent {past : List Act} {act : Act} (h : Reported past s) (hs : Silent s s')
    (hact : ∀ u, lastResult u (act :: past) = lastResult u past) : Reported (act :: past) s' := by
  intro u r hr
  rw [hact]
  exact h u r (hs u r hr)

theorem Reported.exec {past : List Act} {act : Act} (h : Reported past s) (hs : s.exec act = some s') : Reported (act :: past) s' := by
  cases act with
  | create t detached =>
    rw [State.exec] at hs
    split at hs
    · rename_i hpc
      cases hs
      exact h.of_silent (.of_update (q := .createLock detached) hpc rfl (fun _ _ => rfl) (.inl rfl)) fun _ => rfl
    · cases hs
  | spawn t child =>
    rw [State.exec] at hs
    cases hpc : s.pc t with
    | createInit detached =>
      rw [hpc] at hs
      dsimp only at hs
      split at hs
      · rename_i hfree
        cases hs
        have hne : t ≠ child := by
          rintro rfl
          rw [hpc] at hfree
          cases hfree.2
        have hstart : Silent s ((s.setThread child ⟨.starting, none, false, detached, (s.thread child).result⟩).setPc child .registerLock) :=
          .of_update hfree.2 rfl (fun v _ => kept_field s child _ ThreadT.result (by rfl) v) (.inr rfl)
        have hturn : Silent s (((s.setThread child ⟨.starting, none, false, detached, (s.thread child).result⟩).setPc child
            .registerLock).setPc t (.createUnlock child)) :=
          hstart.trans (.of_update ((State.setPc_of_ne _ _ hne).trans hpc) rfl (fun _ _ => rfl) (.inl rfl))
        intro u r hr
        have hbefore := hturn u r hr
        rw [lastResult]
        split
        · rename_i hcu
          rw [← hcu, hfree.2] at hbefore
          cases hbefore
        · exact h u r hbefore
      · cases hs
    | _ =>
      rw [hpc] at hs
      cases hs
  | exit t result =>
    rw [State.exec] at hs
    split at hs
    · cases hs
      intro u r hr
      rw [lastResult]
      split
      · rename_i htu
        rw [htu, State.setPc_self] at hr
        exact hr
      · rename_i htu
        rw [State.setPc_of_ne s _ fun hut => htu hut.symm] at hr
        exact h u r hr
    · cases hs
  | join t joinee =>
    rw [State.exec] at hs
    split at hs
    · rename_i hpc
      cases hs
      exact h.of_silent (.of_update (q := .markLock joinee) hpc.1 rfl (fun _ _ => rfl) (.inl rfl)) fun _ => rfl
    · cases hs
  | go t => exact h.of_silent (.go hs) fun _ => rfl
  | wake t =>
    rw [State.exec, Option.map_eq_some_iff] at hs
    obtain ⟨v, -, rfl⟩ := hs
    exact h.of_silent (.of_update rfl rfl (fun _ _ => rfl) (.inl (wake_reports _))) fun _ => rfl
  | ret t joinee result =>
    rw [State.exec] at hs
    split at hs
    · rename_i hpc
      cases hs
      exact h.of_silent (.of_update (q := .program) hpc rfl (fun _ _ => rfl) (.inl rfl)) fun _ => rfl
    · cases hs
  | commit t =>
    rw [State.exec] at hs
    split at hs
    · cases hs
      refine h.of_silent (fun v r hv => ?_) fun _ => rfl
      simp only [State.epochBegin] at hv
      split at hv
      · cases hv
      · exact hv
    · cases hs

theorem State.Began.reported (h : s.Began) : Reported [] s := by
  intro u r hr
  by_cases hu : u = 0
  · rw [hu, h.pc] at hr
    cases hr
  · rw [h.absent u hu] at hr
    cases hr

/-- `thread_join` gives what the start routine of the joinee has returned. -/
theorem join_returns_result {s₀ : State} {acts : List Act} (hb : s₀.Began) (hrun : Steps system s₀ acts s)
    (hret : s.exec (.ret t u r) = some s') : lastResult u acts.reverse = some r := by
  have hstep : ∀ past s i t, Reported past s → system.step s i t → Reported (i :: past) t := fun _ _ _ _ h hs => h.exec hs
  have hreported := hrun.past hstep hb.reported
  have hinv : Inv s := Inv.of_reachable (hrun.reachable (.init hb))
  rw [State.exec] at hret
  split at hret
  · rename_i hpc
    obtain ⟨hfinished, hresult⟩ := (hinv.ok_at hpc).took u r rfl
    refine hreported u r ?_
    rw [reports_of_finished _ hfinished, hresult]
  · cases hret

/-- It is woken up and takes the result. -/
def joined : List Act :=
  joining ++ [.go 1, .go 1, .go 0, .go 0, .go 0, .go 0, .go 0, .go 0, .go 0]

theorem join_returns_result_joined : ∃ acts s s', Steps system single acts s ∧ s.exec (.ret 0 1 7) = some s' ∧
    lastResult 1 acts.reverse = some 7 := by
  have hrun : (joined.foldlM State.exec single).map (fun s => (s.exec (.ret 0 1 7)).isSome) = some true := by decide +kernel
  obtain ⟨s, hs, hret⟩ := Option.map_eq_some_iff.mp hrun
  obtain ⟨s', hret⟩ := Option.isSome_iff_exists.mp hret
  have hsteps := Steps.of_foldlM (S := system) (f := State.exec) (fun _ _ _ h => h) hs
  exact ⟨_, s, s', hsteps, hret, join_returns_result single_began hsteps hret⟩

/-! ### Wakeups -/

/-- Its registration, with the signal, is to come. -/
def Stage.announces : Stage → Bool
  | .starting | .announcing => true
  | _ => false

/-- It is going to look at its joiner, and to signal it. -/
def Stage.signals : Stage → Bool
  | .running | .checking | .signalling => true
  | _ => false

/-- Who sleeps has somebody to be woken up by. -/
structure Waits (s : State) : Prop where
  join : ∀ a u, s.pc a = .joinSleep u → (s.pc u).stage.announces = true ∨ (s.pc u).stage.signals = true ∧ (s.thread u).joiner = some a
  create : ∀ a c, s.pc a = .createSleep c → (s.pc c).stage.announces = true

/-- A step of the thread `t`, by what it does for `t` and for those who sleep on `t`. -/
theorem Waits.turn (h : Waits s) (hpc' : s'.pc = Function.update s.pc t q)
    (hjoiner : ∀ a u, a ≠ t → u ≠ t → s.pc a = .joinSleep u → (s'.thread u).joiner = (s.thread u).joiner)
    (hjoin : ∀ a, s.pc a = .joinSleep t → q.stage.announces = true ∨ q.stage.signals = true ∧ (s'.thread t).joiner = some a)
    (hcreate : ∀ a, s.pc a = .createSleep t → q.stage.announces = true)
    (hjoins : ∀ u, q = .joinSleep u → u ≠ t ∧
      ((s.pc u).stage.announces = true ∨ (s.pc u).stage.signals = true ∧ (s'.thread u).joiner = some t))
    (hcreates : ∀ c, q = .createSleep c → c ≠ t ∧ (s.pc c).stage.announces = true) : Waits s' := by
  have hself : s'.pc t = q := by rw [hpc', Function.update_self]
  have hother : ∀ v, v ≠ t → s'.pc v = s.pc v := fun v hv => by rw [hpc', Function.update_of_ne hv]
  refine ⟨fun a u ha => ?_, fun a c ha => ?_⟩
  · by_cases hat : a = t
    · subst hat
      rw [hself] at ha
      rw [hother u (hjoins u ha).1]
      exact (hjoins u ha).2
    · rw [hother a hat] at ha
      by_cases hut : u = t
      · rw [hut, hself]
        exact hjoin a (hut ▸ ha)
      · rw [hother u hut, hjoiner a u hat hut ha]
        exact h.join a u ha
  · by_cases hat : a = t
    · subst hat
      rw [hself] at ha
      rw [hother c (hcreates c ha).1]
      exact (hcreates c ha).2
    · rw [hother a hat] at ha
      by_cases hct : c = t
      · rw [hct, hself]
        exact hcreate a (hct ▸ ha)
      · rw [hother c hct]
        exact h.create a c ha

/-- The thread `t` goes on, awake, and not past a signal. -/
theorem Waits.goOn (h : Waits s) (hpc : s.pc t = p) (hpc' : s'.pc = Function.update s.pc t q)
    (hjoiner : ∀ u, (s'.thread u).joiner = (s.thread u).joiner) (hq : q.awake = true)
    (hannounces : p.stage.announces = true → q.stage.announces = true) (hsignals : p.stage.signals = true → q.stage.signals = true) :
    Waits s' := by
  refine h.turn hpc' (fun _ u _ _ _ => hjoiner u) (fun a ha => ?_) (fun a ha => hannounces ?_) (fun u hu => ?_) fun c hc => ?_
  · have hw := h.join a t ha
    rw [hpc] at hw
    rcases hw with hann | ⟨hsig, hj⟩
    · exact .inl (hannounces hann)
    · exact .inr ⟨hsignals hsig, (hjoiner t).trans hj⟩
  · rw [← hpc]
    exact h.create a t ha
  · rw [hu] at hq
    cases hq
  · rw [hc] at hq
    cases hq

theorem wake_eq_joinSleep {v : Nat} (h : p.wake u t = .joinSleep v) : p = .joinSleep v ∧ v ≠ u := by
  cases p with
  | joinSleep w =>
    rw [Pc.wake] at h
    split at h
    · cases h
    · rename_i hwu
      cases h
      exact ⟨rfl, hwu⟩
  | createSleep | finishSleep =>
    rw [Pc.wake] at h
    split at h <;> cases h
  | _ => cases h

theorem wake_eq_createSleep {c : Nat} (h : p.wake u t = .createSleep c) : p = .createSleep c ∧ c ≠ u := by
  cases p with
  | createSleep w =>
    rw [Pc.wake] at h
    split at h
    · cases h
    · rename_i hwu
      cases h
      exact ⟨rfl, hwu⟩
  | joinSleep | finishSleep =>
    rw [Pc.wake] at h
    split at h <;> cases h
  | _ => cases h

theorem Waits.broadcast (h : Waits s) (hi : Inv s) (u : Nat) : Waits (s.signalThread u) := by
  have hstage : ∀ a, ((s.signalThread u).pc a).stage = (s.pc a).stage := fun a => (wake_like (hi.ok a).notFailed).2.1
  refine ⟨fun a v ha => ?_, fun a c ha => ?_⟩
  · rw [hstage]
    exact h.join a v (wake_eq_joinSleep ha).1
  · rw [hstage]
    exact h.create a c (wake_eq_createSleep ha).1

/-- A parent goes to sleep while its child has not registered. -/
theorem Waits.createSleep {c : Nat} (h : Waits s) (hi : Inv s) (hpc : s.pc t = .createLoop c) (hstatus : (s.thread c).status = .starting) :
    Waits (s.unlockThread t c (.createSleep c)) := by
  have hpresent : s.pc c ≠ .absent := by
    intro habs
    have hc := (hi.ok_at hpc).child c rfl
    rw [habs] at hc
    exact hc rfl
  have hstarting : (s.pc c).status = .starting := ((hi.ok c).status hpresent).symm.trans hstatus
  have hstage : (s.pc c).stage = .starting := by
    cases hc : s.pc c with
    | registerLock | register => rfl
    | _ =>
      rw [hc] at hstarting
      cases hstarting
  refine h.turn (q := .createSleep c) rfl (fun _ _ _ _ _ => rfl) (fun a ha => ?_) (fun a ha => ?_) (fun u hu => ?_) fun v hv => ?_
  · have hw := h.join a t ha
    rw [hpc] at hw
    exact hw
  · have hc := h.create a t ha
    rw [hpc] at hc
    cases hc
  · cases hu
  · cases hv
    rw [hstage]
    refine ⟨?_, rfl⟩
    rintro rfl
    rw [hpc] at hstage
    cases hstage

/-- A thread goes to sleep while its joinee has not finished. -/
theorem Waits.joinSleep (h : Waits s) (hi : Inv s) (hpc : s.pc t = .joinLoop u) (hstatus : (s.thread u).status ≠ .waitForReaping) :
    Waits ((s.setThread u { s.thread u with joiner := some t }).unlockThread t u (.joinSleep u)) := by
  have hjoinee := (hi.ok_at hpc).joinee u rfl
  have hstage : (s.pc u).stage.announces = true ∨ (s.pc u).stage.signals = true := by
    cases hu : s.pc u with
    | absent =>
      rw [hu] at hjoinee
      exact absurd rfl hjoinee.1
    | registerLock | register | registerSignal => exact .inl rfl
    | finishCheck | finishSignal | finishLoop | finishSleep | finishRelock | failed =>
      exact absurd ((hi.ok_at hu).status fun heq => by cases heq) hstatus
    | _ => exact .inr rfl
  have hother : ∀ {v : Nat}, v ≠ u → (Function.update s.thread u { s.thread u with joiner := some t } v).joiner = (s.thread v).joiner :=
    fun hv => congrArg ThreadT.joiner (Function.update_of_ne hv _ s.thread)
  refine h.turn (q := .joinSleep u) rfl (fun a v hat _ ha => hother ?_) (fun a ha => ?_) (fun a ha => ?_) (fun v hv => ?_) fun c hc => ?_
  · rintro rfl
    exact hat (hi.alone v a t (by rw [ha]; rfl) (by rw [hpc]; rfl))
  · have hw := h.join a t ha
    rw [hpc] at hw
    rcases hw with hann | ⟨hsig, hj⟩
    · exact .inl hann
    · exact .inr ⟨hsig, (hother hjoinee.2.1.symm).trans hj⟩
  · have hc := h.create a t ha
    rw [hpc] at hc
    cases hc
  · cases hv
    refine ⟨hjoinee.2.1, hstage.imp_right fun hsig => ⟨hsig, ?_⟩⟩
    exact congrArg ThreadT.joiner (Function.update_self u _ s.thread)
  · cases hc

theorem Waits.go (h : Waits s) (hi : Inv s) (hs : s.go t = some s') : Waits s' := by
  cases go_move hs with
  | along p q hpc _ _ hpc' hthread _ hstage _ _ hq =>
    refine h.goOn hpc hpc' (fun u => by rw [hthread]) hq ?_ ?_ <;> rw [hstage] <;> exact id
  | createSleep child hpc hstatus hs' =>
    subst hs'
    exact h.createSleep hi hpc hstatus
  | register hpc hs' =>
    -- who sleeps for it already is woken up by the signal that follows
    subst hs'
    exact h.turn (q := .registerSignal) rfl (fun a u _ hut _ => congrArg ThreadT.joiner (Function.update_of_ne hut _ s.thread))
      (fun _ _ => .inl rfl) (fun _ _ => rfl) nofun nofun
  | store p q info hpc hs' _ _ hstage hqs _ _ hjoiner _ _ hq =>
    subst hs'
    refine h.goOn (q := q) hpc rfl (fun v => kept_field s t info ThreadT.joiner hjoiner v) hq ?_ fun _ => ?_
    · rw [hstage]
      nofun
    · rcases hqs with hqs | hqs <;> rw [hqs] <;> rfl
  | signal p q hpc hq hs' =>
    subst hs'
    refine (h.broadcast hi t).turn (q := q) rfl (fun _ _ _ _ _ => rfl) (fun a ha => absurd rfl (wake_eq_joinSleep ha).2)
      (fun a ha => absurd rfl (wake_eq_createSleep ha).2) ?_ ?_ <;> rcases hq with ⟨-, rfl⟩ | ⟨-, rfl⟩ <;> nofun
  | check q hpc hs' hq =>
    subst hs'
    have hsleeps : ∀ a, s.pc a = .joinSleep t → (s.thread t).joiner = some a := by
      intro a ha
      have hw := h.join a t ha
      rw [hpc] at hw
      rcases hw with hann | ⟨-, hj⟩
      · cases hann
      · exact hj
    have hgo : ∀ {q : Pc}, q = .finishSignal ∨ q = .finishLoop ∧ (∀ a, s.pc a ≠ .joinSleep t) → Waits (s.setPc t q) := by
      intro q hq
      refine h.turn (q := q) rfl (fun _ _ _ _ _ => rfl) (fun a ha => ?_) (fun a ha => ?_) ?_ ?_
      · rcases hq with rfl | ⟨-, hnone⟩
        · exact .inr ⟨rfl, hsleeps a ha⟩
        · exact absurd ha (hnone a)
      · have hc := h.create a t ha
        rw [hpc] at hc
        cases hc
      · rcases hq with rfl | ⟨rfl, -⟩ <;> nofun
      · rcases hq with rfl | ⟨rfl, -⟩ <;> nofun
    rcases hq with ⟨rfl, hnobody⟩ | ⟨joiner, hjoiner, rfl⟩
    · refine hgo (.inr ⟨rfl, fun a ha => ?_⟩)
      rcases hnobody with hdetached | hnone
      · have hj := ((hi.ok_at ha).joinee t rfl).2.2
        rw [hdetached] at hj
        cases hj
      · have hj := hsleeps a ha
        rw [hnone] at hj
        cases hj
    · rw [if_pos (hi.joining hjoiner (by rw [hpc]; rfl))]
      exact hgo (.inl rfl)
  | leave hpc hleaves =>
    rw [(hi.ok_at hpc).status nofun] at hleaves
    rcases hleaves with heq | heq <;> cases heq
  | take joinee hpc _ hs' =>
    subst hs'
    exact h.goOn (q := .joinTake joinee) hpc rfl (fun _ => rfl) rfl id id
  | joinSleep joinee hpc hstatus hs' =>
    subst hs'
    exact h.joinSleep hi hpc hstatus
  | taken joinee hpc hs' =>
    subst hs'
    exact h.goOn hpc rfl (fun v => kept_field s joinee _ ThreadT.joiner (by rfl) v) rfl id id

theorem wake_awake (h : p.sleepsOn t = some u) : (p.wake u t).awake = true := by
  cases p with
  | createSleep | joinSleep | finishSleep =>
    cases h
    rw [Pc.wake, if_pos rfl]
    rfl
  | _ => cases h

/-- A new thread is going to register. -/
theorem Waits.start (h : Waits s) (u : Nat) (detached : Bool) :
    Waits ((s.setThread u ⟨.starting, none, false, detached, (s.thread u).result⟩).setPc u .registerLock) := by
  refine h.turn (q := .registerLock) rfl (fun a v _ hvu _ => ?_) (fun _ _ => .inl rfl) (fun _ _ => rfl) (fun v hv => ?_) fun c hc => ?_
  · exact congrArg ThreadT.joiner (Function.update_of_ne hvu _ s.thread)
  · cases hv
  · cases hc

theorem Waits.epochBegin (h : Waits s) (hi : Inv s) (hquiet : ∀ a, (s.pc a).quiet = true) (t : Nat) : Waits (s.epochBegin t) := by
  refine ⟨fun a u ha => ?_, fun a c ha => ?_⟩
  · simp only [State.epochBegin] at ha
    split at ha
    · cases ha
    · obtain ⟨-, hr⟩ := hi.not_reaped (t := t) hquiet (a := a) (u := u) (by rw [ha]; rfl)
      simp only [State.epochBegin, hr, Bool.false_eq_true, if_false]
      exact h.join a u ha
  · have hq := hquiet a
    simp only [State.epochBegin] at ha
    split at ha
    · cases ha
    · rw [ha] at hq
      cases hq

theorem Waits.exec {act : Act} (h : Waits s) (hi : Inv s) (hs : s.exec act = some s') : Waits s' := by
  cases act with
  | create t detached =>
    rw [State.exec] at hs
    split at hs
    · rename_i hpc
      cases hs
      exact h.goOn (q := .createLock detached) hpc rfl (fun _ => rfl) rfl id id
    · cases hs
  | spawn t child =>
    rw [State.exec] at hs
    cases hpc : s.pc t with
    | createInit detached =>
      rw [hpc] at hs
      dsimp only at hs
      split at hs
      · rename_i hfree
        cases hs
        have hne : t ≠ child := by
          rintro rfl
          rw [hpc] at hfree
          cases hfree.2
        exact (h.start child detached).goOn (q := .createUnlock child) ((State.setPc_of_ne _ _ hne).trans hpc) rfl (fun _ => rfl) rfl
          id id
      · cases hs
    | _ =>
      rw [hpc] at hs
      cases hs
  | exit t result =>
    rw [State.exec] at hs
    split at hs
    · rename_i hpc
      cases hs
      exact h.goOn (q := .finishLock result) hpc.1 rfl (fun _ => rfl) rfl id id
    · cases hs
  | join t joinee =>
    rw [State.exec] at hs
    split at hs
    · rename_i hpc
      cases hs
      exact h.goOn (q := .markLock joinee) hpc.1 rfl (fun _ => rfl) rfl id id
    · cases hs
  | go t => exact h.go hi hs
  | wake t =>
    rw [State.exec, Option.map_eq_some_iff] at hs
    obtain ⟨u, hu, rfl⟩ := hs
    obtain ⟨-, hstage, -⟩ := wake_like (u := u) (t := t) (hi.ok t).notFailed
    refine h.goOn rfl rfl (fun _ => rfl) (wake_awake hu) ?_ ?_
    · rw [hstage]
      exact id
    · rw [hstage]
      exact id
  | ret t joinee result =>
    rw [State.exec] at hs
    split at hs
    · rename_i hpc
      cases hs
      exact h.goOn (q := .program) hpc rfl (fun _ => rfl) rfl id id
    · cases hs
  | commit t =>
    rw [State.exec] at hs
    split at hs
    · rename_i hq
      cases hs
      exact h.epochBegin hi (hi.quiet hq.2) t
    · cases hs

theorem State.Began.waits (h : s.Began) : Waits s := by
  have hidle : ∀ a, (s.pc a).awake = true := fun a => by
    by_cases ha : a = 0
    · rw [ha, h.pc]
      rfl
    · rw [h.absent a ha]
      rfl
  refine ⟨fun a u ha => ?_, fun a c ha => ?_⟩
  · have hawake := hidle a
    rw [ha] at hawake
    cases hawake
  · have hawake := hidle a
    rw [ha] at hawake
    cases hawake

/-- Who sleeps in `thread_join` is the joiner that its joinee is going to look at and signal, unless the joinee has yet to register: then
    it is woken up by the registration, which resets the joiner. Who sleeps in `thread_create` is woken up by the registration too. -/
theorem no_lost_wakeup (h : Reachable system s) :
    (∀ a u, s.pc a = .joinSleep u → (s.pc u).stage.announces = true ∨ (s.pc u).stage.signals = true ∧ (s.thread u).joiner = some a) ∧
      ∀ a c, s.pc a = .createSleep c → (s.pc c).stage.announces = true := by
  have hinit : ∀ s, system.init s → Inv s ∧ Waits s := fun s hb => ⟨State.Began.inv hb, State.Began.waits hb⟩
  have hstep : ∀ s i t, Inv s ∧ Waits s → system.step s i t → Inv t ∧ Waits t :=
    fun s i t hs hstep => ⟨hs.1.exec hstep, hs.2.exec hs.1 hstep⟩
  obtain ⟨-, hwaits⟩ := h.invariant hinit hstep
  exact ⟨hwaits.join, hwaits.create⟩

/-- The initial thread joins a thread that another one has created, before it has registered. -/
def tooEarly : List Act :=
  creation 0 1 ++ [.create 1 false, .go 1, .spawn 1 2, .join 0 2, .go 0, .go 0, .go 0, .go 0, .go 0, .go 2, .go 2]

theorem no_lost_wakeup_tooEarly : ∃ s, Reachable system s ∧ s.pc 0 = .joinSleep 2 ∧ (s.thread 2).joiner = none ∧
    (s.pc 2).stage.announces = true := by
  have hrun : (tooEarly.foldlM State.exec single).map (fun s => (s.pc 0, (s.thread 2).joiner)) = some (.joinSleep 2, none) := by
    decide +kernel
  obtain ⟨s, hs, heq⟩ := Option.map_eq_some_iff.mp hrun
  have hreach : Reachable system s := .of_foldlM (f := State.exec) (fun _ _ _ _ h => h) (.init single_began) hs
  have hpc : s.pc 0 = .joinSleep 2 := congrArg Prod.fst heq
  have hnone : (s.thread 2).joiner = none := congrArg Prod.snd heq
  rcases (no_lost_wakeup hreach).1 0 2 hpc with hann | ⟨-, hj⟩
  · exact ⟨s, hreach, hpc, hnone, hann⟩
  · rw [hnone] at hj
    cases hj

end Lifecycle

end DoubleTake
