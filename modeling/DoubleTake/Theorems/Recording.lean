import DoubleTake.Theorems.Turns

/-! What an epoch records: each event once, in the pool of its thread and on its list, in the order of the calls. -/

namespace DoubleTake

open Transition

namespace Epoch

variable {E E' : Epoch} {act : Act} {t : Nat} {l : SyncVar} {ret : Int}

/-- The event is recorded at the end of the pool and of the list. -/
structure Records (t : Nat) (l : SyncVar) (ret : Int) (E E' : Epoch) : Prop where
  syncevents : E'.syncevents = Function.update E.syncevents t (E.syncevents t ++ [⟨t, l, ret⟩])
  list : E'.list = Function.update E.list l (E.list l ++ [⟨t, (E.syncevents t).length⟩])

theorem records_of_recordSyncEvent {E₁ : Epoch} (h : E₁.recordSyncEvent t l ret = some E')
    (hs : E₁.syncevents = E.syncevents) (hl : E₁.list = E.list) : Records t l ret E E' := by
  rw [recordSyncEvent] at h
  split at h
  · cases h
    exact ⟨by rw [hs], by rw [hs, hl]⟩
  · cases h

/-- Only the events are different. -/
structure SameThreads (E E' : Epoch) : Prop where
  alive : E'.alive = E.alive
  status : E'.status = E.status
  isNewlySpawned : E'.isNewlySpawned = E.isNewlySpawned
  condwait : E'.condwait = E.condwait
  returned : E'.returned = E.returned
  owner : E'.owner = E.owner
  startOwner : E'.startOwner = E.startOwner
  saved : E'.saved = E.saved
  stale : E'.stale = E.stale
  calls : E'.calls = E.calls

theorem recordSyncEvent_same (h : E.recordSyncEvent t l ret = some E') : E.SameThreads E' := by
  rw [recordSyncEvent] at h
  split at h <;> cases h
  exact ⟨rfl, rfl, rfl, rfl, rfl, rfl, rfl, rfl, rfl, rfl⟩

theorem running_iff : E.running t = true ↔ E.alive t = true ∧ E.status t = .running ∧ E.returned t = none := by
  rw [running, Bool.and_eq_true, Bool.and_eq_true, beq_iff_eq, Option.isNone_iff_eq_none, and_assoc]

/-! ### The mutexes of an epoch -/

theorem mutexInit_active (E : Epoch) (m : Nat) :
    m ∈ (E.mutexInit m).active ∧ (E.active.Nodup → (E.mutexInit m).active.Nodup) ∧ ∀ m' ∈ E.active, m' ∈ (E.mutexInit m).active := by
  rw [mutexInit]
  dsimp only
  split
  · exact ⟨‹_›, id, fun _ => id⟩
  · rename_i hm
    refine ⟨by simp, fun hnodup => ?_, fun m' hm' => List.mem_append_left _ hm'⟩
    refine List.nodup_append.mpr ⟨hnodup, List.nodup_singleton m, ?_⟩
    rintro x hx y hy rfl
    rw [List.mem_singleton.mp hy] at hx
    exact hm hx

/-- `_activeList` has every mutex once, and at least those with events. -/
structure Active (E : Epoch) : Prop where
  nodup : E.active.Nodup
  mem : ∀ m, E.list (.mutex m) ≠ [] → m ∈ E.active
  owner : ∀ m, E.owner m ≠ none → m ∈ E.active
  condwait : ∀ t m, E.condwait t = some m → m ∈ E.active
  returned : ∀ t r, E.returned t = some r → r.mutex ∈ E.active

theorem Active.mutexInit (ha : E.Active) (m : Nat) : (E.mutexInit m).Active := by
  obtain ⟨-, hnodup, hmem⟩ := mutexInit_active E m
  exact ⟨hnodup ha.nodup, fun m' hm' => hmem m' (ha.mem m' hm'), fun m' hm' => hmem m' (ha.owner m' hm'),
    fun t m' hm' => hmem m' (ha.condwait t m' hm'), fun t r hr => hmem r.mutex (ha.returned t r hr)⟩

theorem Active.setOwner (ha : E.Active) {m : Nat} (o : Option Nat) (hm : o = none ∨ m ∈ E.active) : (E.setOwner m o).Active := by
  refine ⟨ha.nodup, ha.mem, fun m' hm' => ?_, ha.condwait, ha.returned⟩
  by_cases heq : m' = m
  · subst heq
    rcases hm with rfl | hm
    · simp [Epoch.setOwner] at hm'
    · exact hm
  · exact ha.owner m' (by simpa [Epoch.setOwner, heq] using hm')

theorem Active.setStatus (ha : E.Active) {o : Option Nat} (status : ThreadStatus) (c : Option Nat)
    (ho : ∀ m, o = some m → m ∈ E.active) : (E.setStatus t status o c).Active := by
  refine ⟨ha.nodup, ha.mem, ha.owner, fun u m hm => ?_, ha.returned⟩
  by_cases heq : u = t
  · subst heq
    exact ho m (by simpa [Epoch.setStatus] using hm)
  · exact ha.condwait u m (by simpa [Epoch.setStatus, heq] using hm)

theorem Active.setReturned (ha : E.Active) {o : Option Returned} (ho : ∀ r, o = some r → r.mutex ∈ E.active) :
    (E.setReturned t o).Active := by
  refine ⟨ha.nodup, ha.mem, ha.owner, ha.condwait, fun u r hr => ?_⟩
  by_cases heq : u = t
  · subst heq
    exact ho r (by simpa [Epoch.setReturned] using hr)
  · exact ha.returned u r (by simpa [Epoch.setReturned, heq] using hr)

theorem Active.addCall (ha : E.Active) (call : SyncCall) : (E.addCall t call).Active :=
  ⟨ha.nodup, ha.mem, ha.owner, ha.condwait, ha.returned⟩

theorem Active.record (ha : E.Active) (hl : ∀ m, l = .mutex m → m ∈ E.active) (h : E.recordSyncEvent t l ret = some E') :
    E'.Active := by
  rw [recordSyncEvent] at h
  split at h
  · cases h
    refine ⟨ha.nodup, fun m hm => ?_, ha.owner, ha.condwait, ha.returned⟩
    by_cases heq : SyncVar.mutex m = l
    · exact hl m heq.symm
    · exact ha.mem m (by simpa [heq] using hm)
  · cases h

theorem Active.exec (ha : E.Active) (h : E.exec act = some E') : E'.Active := by
  cases act with
  | mutexLock t m =>
    rw [Epoch.exec] at h
    split at h <;> cases h
    have hm : m ∈ (E.mutexInit m).active := (mutexInit_active E m).1
    exact (((ha.mutexInit m).setOwner (some t) (.inr hm)).addCall _).setReturned (by rintro _ ⟨⟩; exact hm)
  | mutexTrylock t m =>
    rw [Epoch.exec] at h
    have hm : m ∈ (E.mutexInit m).active := (mutexInit_active E m).1
    split at h
    · cases h
    · split at h <;> cases h
      · exact (((ha.mutexInit m).setOwner (some t) (.inr hm)).addCall _).setReturned (by rintro _ ⟨⟩; exact hm)
      · exact ((ha.mutexInit m).addCall _).setReturned (by rintro _ ⟨⟩; exact hm)
  | mutexUnlock t m =>
    rw [Epoch.exec] at h
    split at h <;> cases h
    exact (ha.setOwner none (.inl rfl)).addCall _
  | condWait t m c =>
    rw [Epoch.exec] at h
    split at h
    · rename_i hg
      cases h
      have hm : m ∈ E.active := ha.owner m (by simp [hg.2])
      exact ((ha.setOwner none (.inl rfl)).setStatus .condWaiting (some c) (by rintro _ ⟨⟩; exact hm)).addCall _
    · cases h
  | condWakeup t ret =>
    rw [Epoch.exec] at h
    split at h
    · cases h
    · rename_i m hw
      split at h <;> cases h
      have hm : m ∈ E.active := ha.condwait t m hw
      exact ((ha.setOwner (some t) (.inr hm)).setStatus (o := none) .running none nofun).setReturned (by rintro _ ⟨⟩; exact hm)
  | record t =>
    rw [Epoch.exec] at h
    split at h
    · cases h
    · rename_i r hr
      exact (ha.setReturned (t := t) (o := none) nofun).record (by rintro _ ⟨⟩; exact ha.returned t r hr) h
  | threadCreate t child =>
    rw [Epoch.exec] at h
    split at h
    · refine Active.record (E := Epoch.addCall _ t (.threadCreate child)) ?_ (by rintro _ ⟨⟩) h
      exact ⟨ha.nodup, ha.mem, ha.owner, ha.condwait, ha.returned⟩
    · cases h
  | finish t =>
    rw [Epoch.exec] at h
    split at h <;> cases h
    exact ha.setStatus (o := none) .waitForReaping none nofun

theorem Began.active_lists (hE : E.Began) : E.Active := by
  refine ⟨hE.active, by simp [hE.list], fun m hm => ?_, fun t m hm => (hE.condwait t m hm).2.2, by simp [hE.returned]⟩
  obtain ⟨t, ht⟩ := Option.ne_none_iff_exists'.mp hm
  exact (hE.owner m t ht).1

/-! ### Where the threads are -/

/-- Where the threads are, which mutexes they have, and with which their contexts were saved. -/
structure Placed (E : Epoch) : Prop where
  asleep : ∀ t m, E.condwait t = some m → E.status t = .condWaiting ∧ E.alive t = true ∧ E.returned t = none
  awake : ∀ t, E.condwait t = none → E.status t = .running ∨ E.status t = .waitForReaping
  returned : ∀ t r, E.returned t = some r → E.alive t = true ∧ E.status t = .running
  taken : ∀ t r, E.returned t = some r → r.taken = true → E.owner r.mutex = some t
  failed : ∀ t r, E.returned t = some r → r.taken = false → r.ret ≠ 0
  owner : ∀ m t, E.owner m = some t → E.alive t = true
  startOwner : ∀ m t, E.startOwner m = some t → E.alive t = true
  stale : ∀ t, E.stale t = true → E.alive t = true
  saved : ∀ t, E.stale t = false → ∀ m, E.saved t m = (E.startOwner m == some t)

section
variable (hp : E.Placed)
include hp

theorem Placed.condwait_none (h : E.running t = true) : E.condwait t = none := by
  obtain ⟨-, hst, -⟩ := running_iff.mp h
  cases hc : E.condwait t with
  | none => rfl
  | some m =>
    rw [(hp.asleep t m hc).1] at hst
    cases hst

/-- A real call returns to its thread. -/
theorem Placed.enter {r : Returned} (halive : E.alive t = true) (hnone : E.returned t = none)
    (hr : r.taken = false → r.ret ≠ 0) (htaken : r.taken = true → E'.owner r.mutex = some t)
    (hold : ∀ m u, E.owner m = some u → E'.owner m = some u) (hnew : ∀ m u, E'.owner m = some u → u = t ∨ E.owner m = some u)
    (hstatus : E'.status = Function.update E.status t .running) (hcond : E'.condwait = Function.update E.condwait t none)
    (hret : E'.returned = Function.update E.returned t (some r)) (ha : E'.alive = E.alive)
    (hso : E'.startOwner = E.startOwner) (hst : E'.stale = E.stale) (hsv : E'.saved = E.saved) : E'.Placed := by
  have hself : ∀ u x, E'.returned u = some x → u = t ∧ x = r ∨ u ≠ t ∧ E.returned u = some x := by
    intro u x hx
    by_cases hu : u = t
    · subst hu
      rw [hret, Function.update_self] at hx
      exact .inl ⟨rfl, (Option.some.inj hx).symm⟩
    · rw [hret, Function.update_of_ne hu] at hx
      exact .inr ⟨hu, hx⟩
  refine ⟨fun u m hu => ?_, fun u hu => ?_, fun u x hx => ?_, fun u x hx => ?_, fun u x hx => ?_, fun m u hu => ?_, ?_, ?_, ?_⟩
  · have hut : u ≠ t := by
      rintro rfl
      rw [hcond, Function.update_self] at hu
      cases hu
    rw [hcond, Function.update_of_ne hut] at hu
    rw [hstatus, ha, hret, Function.update_of_ne hut, Function.update_of_ne hut]
    exact hp.asleep u m hu
  · rw [hstatus]
    by_cases hut : u = t
    · subst hut
      exact .inl (Function.update_self ..)
    · rw [hcond, Function.update_of_ne hut] at hu
      rw [Function.update_of_ne hut]
      exact hp.awake u hu
  · rw [ha, hstatus]
    rcases hself u x hx with ⟨rfl, -⟩ | ⟨hut, hx⟩
    · exact ⟨halive, Function.update_self ..⟩
    · rw [Function.update_of_ne hut]
      exact hp.returned u x hx
  · rcases hself u x hx with ⟨rfl, rfl⟩ | ⟨-, hx⟩
    · exact htaken
    · exact fun hx' => hold _ u (hp.taken u x hx hx')
  · rcases hself u x hx with ⟨-, rfl⟩ | ⟨-, hx⟩
    · exact hr
    · exact hp.failed u x hx
  · rw [ha]
    rcases hnew m u hu with rfl | hu
    · exact halive
    · exact hp.owner m u hu
  · rw [hso, ha]
    exact hp.startOwner
  · rw [hst, ha]
    exact hp.stale
  · rw [hst, hsv, hso]
    exact hp.saved

/-- A running thread gives a mutex back, and may go to sleep. -/
theorem Placed.release (status : Nat → ThreadStatus) (condwait : Nat → Option Nat) (hrun : E.running t = true)
    (hm : E.owner m = some t) (hstatus : ∀ u, u ≠ t → status u = E.status u ∧ condwait u = E.condwait u)
    (hself : status t = .running ∧ condwait t = none ∨ status t = .condWaiting ∧ ∃ m, condwait t = some m) :
    { E with owner := Function.update E.owner m none, status := status, condwait := condwait }.Placed := by
  obtain ⟨halive, -, hnone⟩ := running_iff.mp hrun
  have hother : ∀ u x, E.returned u = some x → u ≠ t := by
    rintro u x hx rfl
    rw [hnone] at hx
    cases hx
  refine ⟨fun u m' hu => ?_, fun u hu => ?_, fun u x hx => ?_, fun u x hx hx' => ?_, hp.failed, fun m' u hu => ?_, hp.startOwner,
    hp.stale, hp.saved⟩
  · by_cases hut : u = t
    · subst hut
      rcases hself with ⟨-, hc⟩ | ⟨hs, -⟩
      · exact absurd (hu.symm.trans hc) nofun
      · exact ⟨hs, halive, hnone⟩
    · obtain ⟨hs, hc⟩ := hstatus u hut
      obtain ⟨hs', hrest⟩ := hp.asleep u m' (hc ▸ hu)
      exact ⟨hs.trans hs', hrest⟩
  · by_cases hut : u = t
    · subst hut
      rcases hself with ⟨hs, -⟩ | ⟨-, m', hc⟩
      · exact .inl hs
      · exact absurd (hu.symm.trans hc) nofun
    · obtain ⟨hs, hc⟩ := hstatus u hut
      exact (hp.awake u (hc ▸ hu)).imp hs.trans hs.trans
  · obtain ⟨ha, hs⟩ := hp.returned u x hx
    exact ⟨ha, (hstatus u (hother u x hx)).1.trans hs⟩
  · have howner := hp.taken u x hx hx'
    refine (Function.update_of_ne ?_ _ _).trans howner
    rintro rfl
    exact hother u x hx (Option.some.inj (howner.symm.trans hm))
  · by_cases heq : m' = m
    · subst heq
      exact absurd ((Function.update_self ..).symm.trans hu) nofun
    · exact hp.owner m' u ((Function.update_of_ne heq _ _).symm.trans hu)

/-- The call of a thread is over. -/
theorem Placed.leave (hret : E'.returned = Function.update E.returned t none) (hs : E'.status = E.status)
    (hc : E'.condwait = E.condwait) (ha : E'.alive = E.alive) (ho : E'.owner = E.owner) (hso : E'.startOwner = E.startOwner)
    (hst : E'.stale = E.stale) (hsv : E'.saved = E.saved) : E'.Placed := by
  have hold : ∀ u x, E'.returned u = some x → E.returned u = some x := by
    intro u x hx
    by_cases hu : u = t
    · subst hu
      rw [hret, Function.update_self] at hx
      cases hx
    · rw [hret, Function.update_of_ne hu] at hx
      exact hx
  refine ⟨fun u m hu => ?_, ?_, fun u x hx => ?_, fun u x hx => ?_, fun u x hx => hp.failed u x (hold u x hx), ?_, ?_, ?_, ?_⟩
  · rw [hc] at hu
    obtain ⟨hs', ha', hr'⟩ := hp.asleep u m hu
    refine ⟨hs ▸ hs', ha ▸ ha', ?_⟩
    cases hx : E'.returned u with
    | none => rfl
    | some x => exact absurd (hr'.symm.trans (hold u x hx)) nofun
  · rw [hs, hc]
    exact hp.awake
  · rw [ha, hs]
    exact hp.returned u x (hold u x hx)
  · rw [ho]
    exact hp.taken u x (hold u x hx)
  · rw [ho, ha]
    exact hp.owner
  · rw [hso, ha]
    exact hp.startOwner
  · rw [hst, ha]
    exact hp.stale
  · rw [hst, hsv, hso]
    exact hp.saved

/-- A thread is created. -/
theorem Placed.create {child : Nat} (hdead : E.alive child = false) (ha : E'.alive = Function.update E.alive child true)
    (hs : E'.status = Function.update E.status child .running) (hsv : E'.saved = Function.update E.saved child fun _ => false)
    (hst : E'.stale = Function.update E.stale child false) (hc : E'.condwait = E.condwait) (hret : E'.returned = E.returned)
    (ho : E'.owner = E.owner) (hso : E'.startOwner = E.startOwner) : E'.Placed := by
  have hne : ∀ {u}, E.alive u = true → u ≠ child := by
    rintro u hu rfl
    rw [hdead] at hu
    cases hu
  have halive : ∀ {u}, E.alive u = true → E'.alive u = true := fun hu => by
    rw [ha, Function.update_of_ne (hne hu), hu]
  refine ⟨fun u m hu => ?_, fun u hu => ?_, fun u x hx => ?_, ?_, ?_, fun m u hu => ?_, fun m u hu => ?_, fun u hu => ?_,
    fun u hu m => ?_⟩
  · rw [hc] at hu
    obtain ⟨hs', ha', hr'⟩ := hp.asleep u m hu
    rw [hs, Function.update_of_ne (hne ha'), hret]
    exact ⟨hs', halive ha', hr'⟩
  · rw [hs]
    by_cases huc : u = child
    · subst huc
      exact .inl (Function.update_self ..)
    · rw [Function.update_of_ne huc]
      exact hp.awake u (hc ▸ hu)
  · rw [hret] at hx
    obtain ⟨ha', hs'⟩ := hp.returned u x hx
    rw [hs, Function.update_of_ne (hne ha')]
    exact ⟨halive ha', hs'⟩
  · rw [hret, ho]
    exact hp.taken
  · rw [hret]
    exact hp.failed
  · exact halive (hp.owner m u (ho ▸ hu))
  · exact halive (hp.startOwner m u (hso ▸ hu))
  · refine halive (hp.stale u ?_)
    rw [hst] at hu
    by_cases huc : u = child
    · subst huc
      rw [Function.update_self] at hu
      cases hu
    · rwa [Function.update_of_ne huc] at hu
  · rw [hsv, hso]
    by_cases huc : u = child
    · subst huc
      rw [Function.update_self, eq_comm, beq_eq_false_iff_ne]
      exact fun hm => hne (hp.startOwner m u hm) rfl
    · rw [hst, Function.update_of_ne huc] at hu
      rw [Function.update_of_ne huc]
      exact hp.saved u hu m

theorem Placed.exec (h : E.exec act = some E') : E'.Placed := by
  have hrun : ∀ {t}, E.running t = true → Function.update E.status t .running = E.status ∧
      Function.update E.condwait t none = E.condwait := fun ht =>
    ⟨Function.update_eq_self_iff.mpr (running_iff.mp ht).2.1.symm, Function.update_eq_self_iff.mpr (hp.condwait_none ht).symm⟩
  have htake : ∀ {t m}, E.owner m = none → (∀ m' u, E.owner m' = some u → Function.update E.owner m (some t) m' = some u) ∧
      ∀ m' u, Function.update E.owner m (some t) m' = some u → u = t ∨ E.owner m' = some u := by
    intro t m hm
    refine ⟨fun m' u hu => ?_, fun m' u hu => ?_⟩
    · refine (Function.update_of_ne ?_ _ _).trans hu
      rintro rfl
      exact absurd (hm.symm.trans hu) nofun
    · by_cases heq : m' = m
      · subst heq
        rw [Function.update_self] at hu
        exact .inl (Option.some.inj hu).symm
      · rw [Function.update_of_ne heq] at hu
        exact .inr hu
  cases act with
  | mutexLock t m =>
    rw [Epoch.exec] at h
    split at h
    · rename_i hg
      cases h
      obtain ⟨hs, hc⟩ := hrun hg.1
      obtain ⟨halive, -, hnone⟩ := running_iff.mp hg.1
      obtain ⟨hold, hnew⟩ := htake (t := t) hg.2
      simp only [mutexInit, setOwner, addCall, setReturned]
      exact hp.enter (r := ⟨m, 0, true⟩) halive hnone nofun (fun _ => Function.update_self ..) hold hnew hs.symm hc.symm rfl rfl
        rfl rfl rfl
    · cases h
  | mutexTrylock t m =>
    rw [Epoch.exec] at h
    split at h
    · cases h
    · rename_i hg
      have hg := not_not.mp hg
      obtain ⟨hs, hc⟩ := hrun hg
      obtain ⟨halive, -, hnone⟩ := running_iff.mp hg
      split at h
      · rename_i hm
        cases h
        obtain ⟨hold, hnew⟩ := htake (t := t) hm
        simp only [mutexInit, setOwner, addCall, setReturned]
        exact hp.enter (r := ⟨m, 0, true⟩) halive hnone nofun (fun _ => Function.update_self ..) hold hnew hs.symm hc.symm rfl
          rfl rfl rfl rfl
      · cases h
        exact hp.enter (r := ⟨m, EBUSY, false⟩) halive hnone (fun _ => (by decide : EBUSY ≠ 0)) nofun (fun _ _ => id)
          (fun _ _ => .inr) hs.symm hc.symm rfl rfl rfl rfl rfl
  | mutexUnlock t m =>
    rw [Epoch.exec] at h
    split at h
    · rename_i hg
      cases h
      have hp' := hp.release E.status E.condwait hg.1 hg.2 (fun _ _ => ⟨rfl, rfl⟩) (.inl ⟨(running_iff.mp hg.1).2.1, hp.condwait_none hg.1⟩)
      exact ⟨hp'.asleep, hp'.awake, hp'.returned, hp'.taken, hp'.failed, hp'.owner, hp'.startOwner, hp'.stale, hp'.saved⟩
    · cases h
  | condWait t m c =>
    rw [Epoch.exec] at h
    split at h
    · rename_i hg
      cases h
      have hp' := hp.release (Function.update E.status t .condWaiting) (Function.update E.condwait t (some m))
        hg.1 hg.2 (fun u hu => ⟨Function.update_of_ne hu _ _, Function.update_of_ne hu _ _⟩)
        (.inr ⟨Function.update_self .., m, Function.update_self ..⟩)
      exact ⟨hp'.asleep, hp'.awake, hp'.returned, hp'.taken, hp'.failed, hp'.owner, hp'.startOwner, hp'.stale, hp'.saved⟩
    · cases h
  | condWakeup t ret =>
    rw [Epoch.exec] at h
    split at h
    · cases h
    · rename_i m hw
      split at h
      · rename_i hm
        cases h
        obtain ⟨-, halive, hnone⟩ := hp.asleep t m hw
        obtain ⟨hold, hnew⟩ := htake (t := t) hm
        exact hp.enter (r := ⟨m, ret, true⟩) halive hnone nofun (fun _ => Function.update_self ..) hold hnew rfl rfl rfl rfl rfl
          rfl rfl
      · cases h
  | record t =>
    rw [Epoch.exec] at h
    split at h
    · cases h
    · have hsame := recordSyncEvent_same h
      exact hp.leave hsame.returned hsame.status hsame.condwait hsame.alive hsame.owner hsame.startOwner hsame.stale hsame.saved
  | threadCreate t child =>
    rw [Epoch.exec] at h
    split at h
    · rename_i hg
      have hsame := recordSyncEvent_same h
      exact hp.create (Bool.eq_false_iff.mpr hg.2) hsame.alive hsame.status hsame.saved hsame.stale hsame.condwait hsame.returned
        hsame.owner hsame.startOwner
    · cases h
  | finish t =>
    rw [Epoch.exec] at h
    split at h
    · rename_i hg
      cases h
      obtain ⟨-, -, hnone⟩ := running_iff.mp hg
      have hother : ∀ {u x}, E.returned u = some x → u ≠ t := by
        rintro u x hx rfl
        exact absurd (hnone.symm.trans hx) nofun
      have hcond : (E.setStatus t .waitForReaping none none).condwait = E.condwait := (hrun hg).2
      refine ⟨fun u m hu => ?_, fun u hu => ?_, fun u x hx => ?_, hp.taken, hp.failed, hp.owner, hp.startOwner, hp.stale, hp.saved⟩
      · rw [hcond] at hu
        have hut : u ≠ t := by
          rintro rfl
          exact absurd ((hp.condwait_none hg).symm.trans hu) nofun
        obtain ⟨hs, hrest⟩ := hp.asleep u m hu
        exact ⟨(Function.update_of_ne hut _ _).trans hs, hrest⟩
      · rw [hcond] at hu
        by_cases hut : u = t
        · subst hut
          exact .inr (Function.update_self ..)
        · have hstatus : (E.setStatus t .waitForReaping none none).status u = E.status u := Function.update_of_ne hut _ _
          rw [hstatus]
          exact hp.awake u hu
      · obtain ⟨ha, hs⟩ := hp.returned u x hx
        exact ⟨ha, (Function.update_of_ne (hother hx) _ _).trans hs⟩
    · cases h

end

theorem Began.placed (hE : E.Began) : E.Placed := by
  refine ⟨fun t m hm => ?_, hE.status, by simp [hE.returned], by simp [hE.returned], by simp [hE.returned],
    fun m t ht => (hE.owner m t ht).2, fun m t ht => ?_, fun t ht => ?_, fun t ht m => ?_⟩
  · obtain ⟨hs, ha, -⟩ := hE.condwait t m hm
    exact ⟨hs, ha, hE.returned t⟩
  · rw [hE.startOwner] at ht
    exact (hE.owner m t ht).2
  · rw [hE.stale, Bool.and_eq_true] at ht
    exact ht.1
  · rw [hE.startOwner]
    exact hE.saved t ht m

/-- An epoch begins where one ends. -/
theorem epochBegin_began (ha : E.Active) (hp : E.Placed) (hr : ∀ t, E.returned t = none) : E.epochBegin.Began := by
  refine ⟨rfl, fun t m hm => ?_, hp.awake, hr, fun _ => rfl, fun _ => rfl, fun t ht m => if_neg ?_, ha.nodup, fun m t hm => ?_,
    fun _ => rfl, fun _ => rfl, fun _ => rfl⟩
  · obtain ⟨hs, halive, -⟩ := hp.asleep t m hm
    exact ⟨hs, halive, ha.condwait t m hm⟩
  · rintro ⟨halive, hs⟩
    have ht : (E.alive t && E.status t != .running) = false := ht
    rw [halive, Bool.true_and, bne_eq_false_iff_eq] at ht
    exact hs ht
  · have hm : E.owner m = some t := hm
    exact ⟨ha.owner m (by simp [hm]), hp.owner m t hm⟩

theorem reachable_sound (h : Reachable system E) : E.Active ∧ E.Placed := by
  refine Reachable.invariant (S := system) (P := fun E => E.Active ∧ E.Placed) (fun E hE => ⟨hE.active_lists, hE.placed⟩) ?_ h
  rintro E act E' ⟨ha, hp⟩ hx
  cases act with
  | act a => exact ⟨ha.exec hx, hp.exec hx⟩
  | epochBegin t =>
    obtain ⟨-, hr, rfl⟩ := hx
    have hb := epochBegin_began ha hp hr
    exact ⟨hb.active_lists, hb.placed⟩

theorem reachable_active (h : Reachable system E) : E.Active := (reachable_sound h).1

theorem reachable_placed (h : Reachable system E) : E.Placed := (reachable_sound h).2

/-! ### What a step does, as it is recorded -/

/-- The mutex of the call that has no event yet: the thread sleeps in it, or is about to record it. -/
def unrecorded (E : Epoch) (t : Nat) : Option Nat := (E.condwait t).or ((E.returned t).map Returned.mutex)

/-- The thread has taken the mutex and not recorded it yet. -/
def taking (E : Epoch) (t m : Nat) : Bool := (E.returned t).any fun r => r.taken && r.mutex == m

/-- Who holds the mutex after the recorded events. -/
def holder (E : Epoch) (m : Nat) : Option Nat := (E.owner m).filter fun t => !E.taking t m

/-- What a step that records nothing and creates no thread leaves. -/
structure Kept (E E' : Epoch) : Prop where
  syncevents : E'.syncevents = E.syncevents
  list : E'.list = E.list
  alive : E'.alive = E.alive
  isNewlySpawned : E'.isNewlySpawned = E.isNewlySpawned
  startOwner : E'.startOwner = E.startOwner
  stale : E'.stale = E.stale

/-- What a step does to the calls, to the mutexes and to the events. -/
inductive Did (E E' : Epoch) : Prop where
  /-- The real lock or trylock returns. -/
  | enter (t m : Nat) (call : SyncCall) (r : Returned) : E.running t = true → r.mutex = m →
      call = .mutexLock m ∨ call = .mutexTrylock m → (r.taken = true → r.ret = 0) →
      E'.calls = Function.update E.calls t (E.calls t ++ [call]) → E'.condwait = E.condwait →
      E'.returned = Function.update E.returned t (some r) → E'.holder = E.holder → E.Kept E' → Did E E'
  | release (t m : Nat) (call : SyncCall) : E.running t = true → E.holder m = some t →
      call = .mutexUnlock m ∧ E'.condwait = E.condwait ∨
        call = .condWait m ∧ E'.condwait = Function.update E.condwait t (some m) →
      E'.calls = Function.update E.calls t (E.calls t ++ [call]) → E'.returned = E.returned →
      E'.holder = Function.update E.holder m none → E.Kept E' → Did E E'
  /-- The real `pthread_cond_wait` returns. -/
  | wakeup (t m : Nat) (r : Returned) : E.condwait t = some m → r.mutex = m → r.taken = true →
      E'.condwait = Function.update E.condwait t none → E'.returned = Function.update E.returned t (some r) →
      E'.calls = E.calls → E'.holder = E.holder → E.Kept E' → Did E E'
  | record (t : Nat) (r : Returned) : E.returned t = some r → Records t (.mutex r.mutex) r.ret E E' →
      E'.returned = Function.update E.returned t none →
      (r.taken = true → E.holder r.mutex = none ∧ E'.holder = Function.update E.holder r.mutex (some t)) →
      (r.taken = false → r.ret ≠ 0 ∧ E'.holder = E.holder) →
      E'.condwait = E.condwait → E'.calls = E.calls → E'.alive = E.alive → E'.isNewlySpawned = E.isNewlySpawned →
      E'.startOwner = E.startOwner → E'.stale = E.stale → Did E E'
  | create (t child : Nat) : E.running t = true → E.alive child = false → Records t .spawning 0 E E' →
      E'.calls = Function.update E.calls t (E.calls t ++ [.threadCreate child]) →
      E'.alive = Function.update E.alive child true →
      E'.isNewlySpawned = Function.update E.isNewlySpawned child true → (∀ u, E'.stale u = false → E.stale u = false) →
      E'.condwait = E.condwait → E'.returned = E.returned → E'.holder = E.holder → E'.startOwner = E.startOwner → Did E E'
  | finish (t : Nat) : E.running t = true → E'.condwait = E.condwait → E'.returned = E.returned → E'.calls = E.calls →
      E'.holder = E.holder → E.Kept E' → Did E E'

theorem holder_eq_some {m u : Nat} : E.holder m = some u ↔ E.owner m = some u ∧ E.taking u m = false := by
  rw [holder, Option.filter_eq_some_iff, Bool.not_eq_true']

theorem taking_eq_true {u m : Nat} : E.taking u m = true ↔ ∃ r, E.returned u = some r ∧ r.taken = true ∧ r.mutex = m := by
  simp [taking, Option.any_eq_true]

theorem taking_none {u m : Nat} (h : E.returned u = none) : E.taking u m = false := by rw [taking, h]; rfl

theorem holder_congr (ho : E'.owner = E.owner) (ht : ∀ u m, E.owner m = some u → E'.taking u m = E.taking u m) :
    E'.holder = E.holder := by
  funext m
  rw [holder, holder, ho]
  cases hm : E.owner m with
  | none => rfl
  | some u => simp only [Option.filter, ht u m hm]

/-- A mutex that is taken, and not recorded, has no holder. -/
theorem holder_taken {r : Returned} {m : Nat} (hm : E.owner m = none) (hr : r.mutex = m) (htaken : r.taken = true)
    (hnone : E.returned t = none) (ho : E'.owner = Function.update E.owner m (some t))
    (hret : E'.returned = Function.update E.returned t (some r)) : E'.holder = E.holder := by
  funext m'
  rw [holder, holder, ho]
  by_cases heq : m' = m
  · subst heq
    have htaking : E'.taking t m' = true := taking_eq_true.mpr ⟨r, by rw [hret, Function.update_self], htaken, hr⟩
    rw [Function.update_self, hm, Option.filter_some, htaking]
    rfl
  · rw [Function.update_of_ne heq]
    cases hu : E.owner m' with
    | none => rfl
    | some u =>
      have htaking : E'.taking u m' = E.taking u m' := by
        by_cases hut : u = t
        · subst hut
          rw [taking_none hnone, taking, hret, Function.update_self, Option.any_some, hr]
          simp [Ne.symm heq]
        · rw [taking, taking, hret, Function.update_of_ne hut]
      simp only [Option.filter, htaking]

/-- A thread outside of the calls gives a mutex back. -/
theorem holder_released {m : Nat} (ho : E'.owner = Function.update E.owner m none) (hret : E'.returned = E.returned) :
    E'.holder = Function.update E.holder m none := by
  funext m'
  by_cases heq : m' = m
  · subst heq
    rw [Function.update_self, holder, ho, Function.update_self]
    rfl
  · have htaking : ∀ u, E'.taking u m' = E.taking u m' := fun u => by rw [taking, taking, hret]
    rw [Function.update_of_ne heq, holder, holder, ho, Function.update_of_ne heq]
    simp only [htaking]

/-- The event of a thread that has taken its mutex is recorded. -/
theorem Placed.holder_recorded (hp : E.Placed) {r : Returned} (hr : E.returned t = some r) (htaken : r.taken = true)
    (ho : E'.owner = E.owner) (hret : E'.returned = Function.update E.returned t none) :
    E.holder r.mutex = none ∧ E'.holder = Function.update E.holder r.mutex (some t) := by
  have howner := hp.taken t r hr htaken
  have hnone : E'.returned t = none := by rw [hret, Function.update_self]
  refine ⟨?_, funext fun m => ?_⟩
  · rw [holder, howner, Option.filter_some, taking_eq_true.mpr ⟨r, hr, htaken, rfl⟩]
    rfl
  · by_cases heq : m = r.mutex
    · subst heq
      rw [Function.update_self]
      exact holder_eq_some.mpr ⟨ho ▸ howner, taking_none hnone⟩
    · rw [Function.update_of_ne heq, holder, holder, ho]
      cases hu : E.owner m with
      | none => rfl
      | some u =>
        have htaking : E'.taking u m = E.taking u m := by
          by_cases hut : u = t
          · subst hut
            rw [taking_none hnone, taking, hr, Option.any_some]
            simp [Ne.symm heq]
          · rw [taking, taking, hret, Function.update_of_ne hut]
        simp only [Option.filter, htaking]

theorem exec_did (hp : E.Placed) (h : E.exec act = some E') : E.Did E' := by
  cases act with
  | mutexLock t m =>
    rw [exec] at h
    split at h
    · rename_i hg
      cases h
      obtain ⟨-, -, hnone⟩ := running_iff.mp hg.1
      simp only [mutexInit, setOwner, addCall, setReturned]
      exact .enter t m _ ⟨m, 0, true⟩ hg.1 rfl (.inl rfl) (fun _ => rfl) rfl rfl rfl (holder_taken hg.2 rfl rfl hnone rfl rfl)
        ⟨rfl, rfl, rfl, rfl, rfl, rfl⟩
    · cases h
  | mutexTrylock t m =>
    rw [exec] at h
    split at h
    · cases h
    · rename_i hg
      have hg := not_not.mp hg
      obtain ⟨-, -, hnone⟩ := running_iff.mp hg
      split at h
      · rename_i hm
        cases h
        simp only [mutexInit, setOwner, addCall, setReturned]
        exact .enter t m _ ⟨m, 0, true⟩ hg rfl (.inr rfl) (fun _ => rfl) rfl rfl rfl (holder_taken hm rfl rfl hnone rfl rfl)
          ⟨rfl, rfl, rfl, rfl, rfl, rfl⟩
      · cases h
        refine .enter t m _ ⟨m, EBUSY, false⟩ hg rfl (.inr rfl) nofun rfl rfl rfl (holder_congr rfl fun u m' _ => ?_)
          ⟨rfl, rfl, rfl, rfl, rfl, rfl⟩
        by_cases hut : u = t
        · subst hut
          rw [taking_none hnone, taking]
          simp [setReturned]
        · rw [taking, taking]
          simp [setReturned, hut]
          rfl
  | mutexUnlock t m =>
    rw [exec] at h
    split at h
    · rename_i hg
      cases h
      have hm := holder_eq_some.mpr ⟨hg.2, taking_none (running_iff.mp hg.1).2.2⟩
      exact .release t m _ hg.1 hm (.inl ⟨rfl, rfl⟩) rfl rfl (holder_released rfl rfl) ⟨rfl, rfl, rfl, rfl, rfl, rfl⟩
    · cases h
  | condWait t m c =>
    rw [exec] at h
    split at h
    · rename_i hg
      cases h
      have hm := holder_eq_some.mpr ⟨hg.2, taking_none (running_iff.mp hg.1).2.2⟩
      exact .release t m _ hg.1 hm (.inr ⟨rfl, rfl⟩) rfl rfl (holder_released rfl rfl) ⟨rfl, rfl, rfl, rfl, rfl, rfl⟩
    · cases h
  | condWakeup t ret =>
    rw [exec] at h
    split at h
    · cases h
    · rename_i m hw
      split at h
      · rename_i hm
        cases h
        exact .wakeup t m ⟨m, ret, true⟩ hw rfl rfl rfl rfl rfl (holder_taken hm rfl rfl (hp.asleep t m hw).2.2 rfl rfl)
          ⟨rfl, rfl, rfl, rfl, rfl, rfl⟩
      · cases h
  | record t =>
    rw [exec] at h
    split at h
    · cases h
    · rename_i r hr
      have hsame := recordSyncEvent_same h
      refine .record t r hr (records_of_recordSyncEvent h rfl rfl) hsame.returned
        (fun htaken => hp.holder_recorded hr htaken hsame.owner hsame.returned) (fun hfailed => ?_) hsame.condwait hsame.calls
        hsame.alive hsame.isNewlySpawned hsame.startOwner hsame.stale
      refine ⟨hp.failed t r hr hfailed, holder_congr hsame.owner fun u m _ => ?_⟩
      by_cases hut : u = t
      · subst hut
        rw [taking, taking, hsame.returned, hr]
        simp [setReturned, hfailed]
      · rw [taking, taking, hsame.returned]
        simp [setReturned, hut]
  | threadCreate t child =>
    rw [exec] at h
    split at h
    · rename_i hg
      have hsame := recordSyncEvent_same h
      refine .create t child hg.1 (Bool.eq_false_iff.mpr hg.2) (records_of_recordSyncEvent h rfl rfl) hsame.calls hsame.alive
        hsame.isNewlySpawned (fun u hu => ?_) hsame.condwait hsame.returned (holder_congr hsame.owner fun u m _ => ?_)
        hsame.startOwner
      · by_cases huc : u = child
        · subst huc
          exact Bool.eq_false_iff.mpr fun hst => hg.2 (hp.stale u hst)
        · rw [hsame.stale] at hu
          exact (Function.update_of_ne huc _ _).symm.trans hu
      · rw [taking, hsame.returned]
        rfl
    · cases h
  | finish t =>
    rw [exec] at h
    split at h
    · rename_i hg
      cases h
      exact .finish t hg (Function.update_eq_self_iff.mpr (hp.condwait_none hg).symm) rfl rfl rfl ⟨rfl, rfl, rfl, rfl, rfl, rfl⟩
    · cases h

/-- What holds at the begin of every epoch, and is kept by every step in it, holds in every state. -/
theorem reachable_induct {P : Epoch → Prop} (hb : ∀ E, E.Began → P E)
    (hs : ∀ E E', Reachable system E → E.Did E' → P E → P E') (h : Reachable system E) : P E := by
  induction h with
  | init hE => exact hb _ hE
  | step act hreach hx ih =>
    cases act with
    | act a => exact hs _ _ hreach (exec_did (reachable_placed hreach) hx) ih
    | epochBegin t =>
      obtain ⟨-, hr, rfl⟩ := hx
      exact hb _ (epochBegin_began (reachable_active hreach) (reachable_placed hreach) hr)

/-- A step records nothing or one event; a mutex is taken when nobody holds it, and only a mutex is not taken. -/
theorem Did.records (h : E.Did E') : (E'.syncevents = E.syncevents ∧ E'.list = E.list) ∨
    ∃ t l ret, Records t l ret E E' ∧ (∀ m, l = .mutex m → ret = 0 → E.holder m = none) ∧ (l = .spawning → ret = 0) := by
  cases h with
  | enter _ _ _ _ _ _ _ _ _ _ _ _ hk | release _ _ _ _ _ _ _ _ _ hk | wakeup _ _ _ _ _ _ _ _ _ _ hk
  | finish _ _ _ _ _ _ hk => exact .inl ⟨hk.syncevents, hk.list⟩
  | record t r _ hr _ htaken hfailed =>
    refine .inr ⟨t, _, _, hr, ?_, nofun⟩
    rintro _ ⟨⟩ hret
    cases htr : r.taken with
    | true => exact (htaken htr).1
    | false => exact absurd hret (hfailed htr).1
  | create t child _ _ hr => exact .inr ⟨t, _, _, hr, nofun, fun _ => rfl⟩

/-! ### The events -/

theorem getElem?_snoc {α : Type} {xs : List α} {x y : α} {i : Nat} :
    (xs ++ [x])[i]? = some y ↔ xs[i]? = some y ∨ i = xs.length ∧ x = y := by
  rcases Nat.lt_trichotomy i xs.length with hi | rfl | hi
  · rw [List.getElem?_append_left hi]
    simp [Nat.ne_of_lt hi]
  · simp
  · rw [List.getElem?_eq_none (by simp; omega), List.getElem?_eq_none (by omega)]
    simp [Nat.ne_of_gt hi]

theorem Records.pool (h : Records t l ret E E') {u i : Nat} {ev : SyncEvent} :
    (E'.syncevents u)[i]? = some ev ↔
      (E.syncevents u)[i]? = some ev ∨ u = t ∧ i = (E.syncevents t).length ∧ ev = ⟨t, l, ret⟩ := by
  rw [h.syncevents]
  by_cases hu : u = t
  · subst hu
    rw [Function.update_self, getElem?_snoc]
    simp [eq_comm (a := ev)]
  · rw [Function.update_of_ne hu]
    simp [hu]

theorem Records.position (h : Records t l ret E E') {l' : SyncVar} {p : Nat} {e : EventRef} :
    (E'.list l')[p]? = some e ↔
      (E.list l')[p]? = some e ∨ l' = l ∧ p = (E.list l).length ∧ e = ⟨t, (E.syncevents t).length⟩ := by
  rw [h.list]
  by_cases hl : l' = l
  · subst hl
    rw [Function.update_self, getElem?_snoc]
    simp [eq_comm (a := e)]
  · rw [Function.update_of_ne hl]
    simp [hl]

/-- The pools and the lists hold the same events. -/
structure Paired (E : Epoch) : Prop where
  ref : ∀ l (p : Nat) (e : EventRef), (E.list l)[p]? = some e → ∃ ev, (E.syncevents e.thread)[e.index]? = some ev ∧ ev.eventlist = l
  listed : ∀ t (i : Nat) ev, (E.syncevents t)[i]? = some ev → ev.thread = t ∧ ∃ p : Nat, (E.list ev.eventlist)[p]? = some ⟨t, i⟩
  once : ∀ l (p p' : Nat) e, (E.list l)[p]? = some e → (E.list l)[p']? = some e → p = p'

theorem Paired.records (hp : E.Paired) (h : Records t l ret E E') : E'.Paired := by
  -- The new event is not on a list yet.
  have hfresh : ∀ l' (p : Nat), (E.list l')[p]? ≠ some ⟨t, (E.syncevents t).length⟩ := by
    intro l' p he
    obtain ⟨ev, hev, -⟩ := hp.ref l' p _ he
    simp at hev
  constructor
  · intro l' p e he
    rcases h.position.mp he with he | ⟨rfl, -, rfl⟩
    · obtain ⟨ev, hev, hl⟩ := hp.ref l' p e he
      exact ⟨ev, h.pool.mpr (.inl hev), hl⟩
    · exact ⟨⟨t, l', ret⟩, h.pool.mpr (.inr ⟨rfl, rfl, rfl⟩), rfl⟩
  · intro u i ev hev
    rcases h.pool.mp hev with hev | ⟨rfl, rfl, rfl⟩
    · obtain ⟨hu, p, hp⟩ := hp.listed u i ev hev
      exact ⟨hu, p, h.position.mpr (.inl hp)⟩
    · exact ⟨rfl, _, h.position.mpr (.inr ⟨rfl, rfl, rfl⟩)⟩
  · intro l' p p' e he he'
    rcases h.position.mp he with he | ⟨rfl, rfl, rfl⟩
    · rcases h.position.mp he' with he' | ⟨rfl, rfl, rfl⟩
      · exact hp.once l' p p' e he he'
      · exact absurd he (hfresh _ _)
    · rcases h.position.mp he' with he' | ⟨-, rfl, -⟩
      · exact absurd he' (hfresh _ _)
      · rfl

theorem reachable_paired (h : Reachable system E) : E.Paired := by
  refine reachable_induct (P := Paired) (fun E hE => ?_) (fun E E' _ hd hp => ?_) h
  · constructor
    · simp [hE.list]
    · simp [hE.syncevents]
    · simp [hE.list]
  · rcases hd.records with ⟨hs, hl⟩ | ⟨t, l, ret, hr, -⟩
    · constructor
      · rw [hs, hl]
        exact hp.ref
      · rw [hs, hl]
        exact hp.listed
      · rw [hl]
        exact hp.once
    · exact hp.records hr

theorem reachable_listed (h : Reachable system E) : E.Listed := by
  have hp := reachable_paired h
  constructor
  · intro l e he
    obtain ⟨p, he⟩ := List.getElem?_of_mem he
    exact hp.ref l p e he
  · intro t i ev hev
    obtain ⟨-, p, hpos⟩ := hp.listed t i ev hev
    exact List.mem_of_getElem? hpos
  · intro l
    refine List.nodup_iff_injective_get.mpr fun i j hij => Fin.ext ?_
    refine hp.once l i j ((E.list l).get i) ?_ ?_
    · simp
    · rw [hij]
      simp
  · exact (reachable_active h).nodup

/-- Three threads at the begin of an epoch. -/
def start : Epoch where
  alive t := t < 3
  status _ := .running
  isNewlySpawned _ := false
  condwait _ := none
  cond _ := none
  returned _ := none
  owner _ := none
  startOwner _ := none
  saved _ _ := false
  stale _ := false
  active := []
  syncevents _ := []
  list _ := []
  calls _ := []

theorem start_began : start.Began :=
  ⟨rfl, fun _ _ => nofun, fun _ _ => .inl rfl, fun _ => rfl, fun _ => rfl, fun _ => (Bool.and_false _).symm, fun _ _ _ => rfl, .nil,
    fun _ _ => nofun, fun _ => rfl, fun _ => rfl, fun _ => rfl⟩

/-- A run of steps within an epoch. -/
theorem reachable_run (acts : List Act) (h : Reachable system E) (hx : acts.foldlM exec E = some E') : Reachable system E' := by
  induction acts generalizing E with
  | nil =>
    cases hx
    exact h
  | cons a acts ih =>
    rw [List.foldlM_cons] at hx
    obtain ⟨E₁, h₁, hx⟩ := Option.bind_eq_some_iff.mp hx
    exact ih (.step (.act a) h h₁) hx

end Epoch

end DoubleTake
