import DoubleTake.Theorems.Commit

/-! Who executes the application while the memory is saved: nobody, in the runs in which every other thread sleeps when an
    epoch ends and is not woken up until the copy is done. -/

namespace DoubleTake

open Transition

namespace Commit

/-- From the return of `stopAllThreads` to the end of `_memory.epochBegin`. -/
def Committer.saves : Committer → Bool
  | .stopped | .epochEndWell | .begin _ | .reap _ _ | .runDeferredSyncs => true
  | .beginLock | .beginNotify | .beginSleep | .beginRelock | .beginUnlock | .backup => true
  | _ => false

/-- The thread has finished, and is asleep or woken up at its end. -/
def Place.ended : Place → Bool
  | .absent | .asleep .reaping | .woken .reaping => true
  | _ => false

theorem Place.ended_wake {p : Place} (h : p.ended = true) : p.wake.ended = true := by
  cases p with
  | asleep w => cases w <;> first | rfl | cases h
  | absent | woken | program | deferSync | committer => exact h

namespace State

variable {s s' : State} {t u : Nat} {a : Act} {c : Committer} {k : List Nat}

/-- The thread sleeps, and `stopAllThreads` can tell. -/
def Still (s : State) (u : Nat) : Prop := s.place u = .absent ∨ ∃ w, s.place u = .asleep w ∧ s.waits u = true

theorem Still.congr (h : s.Still u) (hp : s'.place u = s.place u) (hs : s'.status u = s.status u) : s'.Still u := by
  rw [Still, hp, State.waits, hs]
  exact h

/-- An epoch ends only when every other thread sleeps, and then nobody wakes up before its time. -/
def alone (s : State) : Act → Prop
  | .epochEnd t => ∀ u, u ≠ t → s.Still u
  | .spurious t => ∀ u c k, s.place u = .committer c k → u = t
  | _ => True

/-- What a step in `epochEnd` or `epochBegin` does to the status of the threads. -/
theorem commit_others (h : s.commit t k c = some s') (u : Nat) :
    s'.hasJoined u = s.hasJoined u ∧
      (s'.status u = s.status u ∧ (u ≠ t → s'.place u = s.place u) ∨
        u ≠ t ∧ c.stage = .committing ∧ s.hasJoined u = true ∧ s'.status u = .exiting ∧ s'.place u = (s.place u).wake ∨
        c.stage = .rolling ∧ ((∃ us, c = .wakeupOldWaitingThreads us) ∨ s'.status u = .running ∨ s'.status u = s.status u)) := by
  have hset : ∀ (x : State) (p : Place), u ≠ t → (x.setPlace t p).place u = x.place u := fun x p hu => by
    simp [State.setPlace, hu]
  cases c with
  | waitSleep | stopped | spin | beginSleep => cases h
  | stop us =>
    cases us with
    | nil =>
      cases h
      exact ⟨rfl, .inl ⟨rfl, hset _ _⟩⟩
    | cons v us =>
      simp only [State.commit] at h
      split at h
      · cases h
        exact ⟨rfl, .inl ⟨rfl, hset _ _⟩⟩
      · split at h <;> cases h
        rw [State.kill]
        split <;> exact ⟨rfl, .inl ⟨rfl, hset _ _⟩⟩
  | wakeupOldWaitingThreads us =>
    cases us with
    | nil =>
      cases h
      exact ⟨rfl, .inl ⟨rfl, hset _ _⟩⟩
    | cons v us =>
      cases h
      rw [State.wakeupOld]
      split
      · exact ⟨rfl, .inr (.inr ⟨rfl, .inl ⟨_, rfl⟩⟩)⟩
      · exact ⟨rfl, .inl ⟨rfl, hset _ _⟩⟩
  | begin us =>
    cases us with
    | nil =>
      cases h
      exact ⟨rfl, .inl ⟨rfl, hset _ _⟩⟩
    | cons v us =>
      simp only [State.commit] at h
      split at h <;> cases h
      · rename_i hv
        refine ⟨rfl, ?_⟩
        by_cases hu : u = v
        · subst hu
          exact .inr (.inl ⟨hv.1, rfl, hv.2, by simp [State.setPlace, State.setStatus],
            by simp [State.setPlace, State.setStatus, hv.1]⟩)
        · exact .inl ⟨by simp [State.setPlace, State.setStatus, hu],
            fun hut => by simp [State.setPlace, State.setStatus, hu, hut]⟩
      · exact ⟨rfl, .inl ⟨rfl, hset _ _⟩⟩
  | checkRollbackCurrent =>
    simp only [State.commit] at h
    split at h <;> cases h
    refine ⟨rfl, .inr (.inr ⟨rfl, ?_⟩)⟩
    by_cases hu : u = t
    · exact .inr (.inl (by simp [State.rollbackCurrent, State.setPlace, State.setStatus, hu]))
    · exact .inr (.inr (by simp [State.rollbackCurrent, State.setPlace, State.setStatus, hu]))
  | setEpochEnd | waitUnlock | globalUnlock | setRollback | globalWakeup | epochEndWell | beginUnlock | backup | saveContext =>
    cases h
    exact ⟨rfl, .inl ⟨rfl, hset _ _⟩⟩
  | checkWaiters | globalLock | waitLock | waitLoop | waitRelock | rollback | reap | runDeferredSyncs | beginLock | beginNotify
  | beginRelock =>
    simp only [State.commit] at h
    split at h <;> cases h <;> exact ⟨rfl, .inl ⟨rfl, hset _ _⟩⟩

/-- A step in `epochEnd` or `epochBegin` starts no handler, and it signals nobody whose status says that it waits. -/
theorem commit_signals (h : s.commit t k c = some s') (hh : ∀ u, s.handler u = none) :
    (∀ u, s'.handler u = none) ∧
      ∀ u, s'.pending u = true → s.pending u = true ∨ u ≠ t ∧ c.stage = .stopping ∧ s.waits u = false := by
  have hsame : (∀ u, s.handler u = none) ∧ ∀ u, s.pending u = true →
      s.pending u = true ∨ u ≠ t ∧ c.stage = .stopping ∧ s.waits u = false := ⟨hh, fun _ => .inl⟩
  cases c with
  | waitSleep | stopped | spin | beginSleep => cases h
  | stop us =>
    cases us with
    | nil =>
      cases h
      exact hsame
    | cons v us =>
      simp only [State.commit] at h
      split at h
      · cases h
        exact hsame
      · rename_i hv
        split at h <;> cases h
        rw [State.kill]
        split
        · exact hsame
        · rename_i hw
          refine ⟨hh, fun u hu => ?_⟩
          by_cases huv : u = v
          · subst huv
            exact .inr ⟨hv, rfl, by simpa using hw⟩
          · exact .inl (by simpa [State.setPending, State.setPlace, huv] using hu)
  | wakeupOldWaitingThreads us =>
    cases us with
    | nil =>
      cases h
      exact hsame
    | cons v us =>
      cases h
      rw [State.wakeupOld]
      split <;> exact hsame
  | begin us =>
    cases us with
    | nil =>
      cases h
      exact hsame
    | cons v us =>
      simp only [State.commit] at h
      split at h <;> cases h <;> exact hsame
  | globalWakeup =>
    cases h
    exact ⟨fun u => by simp [State.setPlace, State.broadcastWaiters, hh], hsame.2⟩
  | beginNotify =>
    simp only [State.commit] at h
    split at h <;> cases h <;>
      exact ⟨fun u => by simp [State.setPlace, State.setMutexSignalhandler, State.broadcastWaiters, State.setPhase, hh], hsame.2⟩
  | setEpochEnd | waitUnlock | globalUnlock | setRollback | epochEndWell | beginUnlock | backup | saveContext =>
    cases h
    exact hsame
  | checkWaiters | globalLock | waitLock | waitLoop | waitRelock | rollback | checkRollbackCurrent | reap | runDeferredSyncs
  | beginLock | beginRelock =>
    simp only [State.commit] at h
    split at h <;> cases h <;> exact hsame

/-- The thread has finished, as its status or its joiner says. -/
def Finished (s : State) (u : Nat) : Prop :=
  s.hasJoined u = true ∨ s.status u = .waitForReaping ∨ s.status u = .exiting

/-- Nobody is stopped by a signal, and while an epoch ends the others sleep or exit. -/
structure Settled (s : State) : Prop where
  unreleased : s.Unreleased
  handler : ∀ u, s.handler u = none
  pending : ∀ u, s.pending u = true → s.place u = .absent
  rollback : ∀ u, s.status u = .rollback → s.isRollback = true
  rolling : ∀ t us k, s.place t = .committer (.wakeupOldWaitingThreads us) k → s.isRollback = true
  ended : s.isRollback = false → ∀ u, s.Finished u → (s.place u).ended = true
  calm : ∀ t c k, s.place t = .committer c k → c.stage ≠ .rolling → ∀ u, u ≠ t →
    s.Still u ∨ c.stage.commits = true ∧ s.place u = .woken .reaping ∧ s.status u = .exiting

/-- No epoch ends while a thread is at a place of its own code. -/
theorem Settled.rolling_of_place (h : s.Settled) (hp : s.place t = .program ∨ ∃ v, s.place t = .deferSync v) {u : Nat}
    (hu : s.place u = .committer c k) : c.stage = .rolling := by
  by_contra hne
  have htu : t ≠ u := by
    rintro rfl
    rcases hp with hp | ⟨v, hp⟩ <;> rw [hp] at hu <;> cases hu
  rcases h.calm u c k hu hne t htu with (hs | ⟨w, hs, -⟩) | ⟨-, hs, -⟩ <;> rcases hp with hp | ⟨v, hp⟩ <;>
    rw [hp] at hs <;> cases hs

theorem Settled.rolling_of_running (h : s.Settled) (hr : s.running t = true) {u : Nat} (hu : s.place u = .committer c k) :
    c.stage = .rolling :=
  h.rolling_of_place (.inl (running_iff.mp hr).1) hu

theorem Settled.not_finished (h : s.Settled) (hroll : s.isRollback = false) (hp : (s.place t).ended = false) :
    s.hasJoined t = false ∧ ¬ s.Finished t := by
  have hno : ¬ s.Finished t := fun hf => by
    have := h.ended hroll t hf
    rw [hp] at this
    cases this
  refine ⟨?_, hno⟩
  by_contra hj
  exact hno (.inl (by simpa using hj))

/-- A step outside of `epochEnd` and `epochBegin` while no epoch ends. -/
theorem Settled.own (h : s.Settled) (hown : Own s s') (hvac : ∀ t c k, s.place t = .committer c k → c.stage = .rolling)
    (hpending : ∀ u, s'.pending u = true → s'.place u = .absent) (hrollback : ∀ u, s'.status u = .rollback → s.isRollback = true)
    (hended : s.isRollback = false → ∀ u, s'.Finished u → (s'.place u).ended = true) : s'.Settled where
  unreleased := h.unreleased.woken hown.phase hown.isRollback fun u c k hu => ⟨c, k, (hown.committer u c k).mp hu, .inl rfl⟩
  handler := fun u => by
    rw [hown.handler]
    exact h.handler u
  pending := hpending
  rollback := fun u hu => by
    rw [hown.isRollback]
    exact hrollback u hu
  rolling := fun t us k ht => by
    rw [hown.isRollback]
    exact h.rolling t us k ((hown.committer _ _ _).mp ht)
  ended := fun hroll => hended (hown.isRollback ▸ hroll)
  calm := fun t c k ht hne => absurd (hvac t c k ((hown.committer t c k).mp ht)) hne

theorem Settled.setSafe (h : s.Settled) (t : Nat) (b : Bool) : (s.setSafe t b).Settled :=
  ⟨⟨h.unreleased.one, h.unreleased.closed, h.unreleased.rollback⟩, h.handler, h.pending, h.rollback, h.rolling, h.ended, h.calm⟩

/-- A thread that has not finished changes its status and goes to another place. -/
theorem Settled.leaves {x : ThreadStatus} {p : Place} (h : s.Settled) (ht : (s.place t).ended = false)
    (hne : ∀ c k, s.place t ≠ .committer c k) (hp : ∀ c k, p ≠ .committer c k)
    (hvac : ∀ t c k, s.place t = .committer c k → c.stage = .rolling)
    (hx : x ≠ .rollback) (hxp : x = .waitForReaping ∨ x = .exiting → p.ended = true) :
    ((s.setStatus t x).setPlace t p).Settled := by
  refine h.own (((Own.refl s).setStatus t x).setPlace hne hp) hvac (fun u hu => ?_) (fun u hu => ?_) (fun hroll u hu => ?_)
  · have hpu := h.pending u hu
    have hut : u ≠ t := by
      rintro rfl
      rw [hpu] at ht
      cases ht
    simpa [State.setPlace, State.setStatus, hut] using hpu
  · by_cases hut : u = t
    · have : x = .rollback := by simpa [State.setPlace, State.setStatus, hut] using hu
      exact absurd this hx
    · exact h.rollback u (by simpa [State.setPlace, State.setStatus, hut] using hu)
  · by_cases hut : u = t
    · subst hut
      obtain ⟨hj, -⟩ := h.not_finished hroll ht
      have hstatus : x = .waitForReaping ∨ x = .exiting := by
        simpa [Finished, State.setPlace, State.setStatus, hj] using hu
      simpa [State.setPlace] using hxp hstatus
    · have := h.ended hroll u (by simpa [Finished, State.setPlace, State.setStatus, hut] using hu)
      simpa [State.setPlace, State.setStatus, hut] using this

/-- A thread is woken up, or goes on, without a change of any status. -/
theorem Settled.moves {p : Place} (h : s.Settled) (hne : ∀ c k, s.place t ≠ .committer c k) (hp : ∀ c k, p ≠ .committer c k)
    (hvac : ∀ t c k, s.place t = .committer c k → c.stage = .rolling) (habsent : s.place t = .absent → p = .absent)
    (hended : (s.place t).ended = true → p.ended = true) : (s.setPlace t p).Settled := by
  refine h.own ((Own.refl s).setPlace hne hp) hvac (fun u hu => ?_) h.rollback (fun hroll u hu => ?_)
  · have hpu := h.pending u hu
    by_cases hut : u = t
    · subst hut
      simpa [State.setPlace] using habsent hpu
    · simpa [State.setPlace, hut] using hpu
  · have hu' := h.ended hroll u hu
    by_cases hut : u = t
    · subst hut
      simpa [State.setPlace] using hended hu'
    · simpa [State.setPlace, hut] using hu'

/-- A thread that has been joined exits. -/
theorem Settled.exit (h : s.Settled) (ht : s.place t = .woken .reaping) : (s.setPlace t .absent).Settled where
  unreleased := h.unreleased.woken rfl rfl fun u c k hu => by
    by_cases hut : u = t
    · simp [State.setPlace, hut] at hu
    · exact ⟨c, k, by simpa [State.setPlace, hut] using hu, .inl rfl⟩
  handler := h.handler
  pending := fun u hu => by
    by_cases hut : u = t
    · simp [State.setPlace, hut]
    · simpa [State.setPlace, hut] using h.pending u hu
  rollback := h.rollback
  rolling := fun u us k hu => by
    by_cases hut : u = t
    · simp [State.setPlace, hut] at hu
    · exact h.rolling u us k (by simpa [State.setPlace, hut] using hu)
  ended := fun hroll u hu => by
    by_cases hut : u = t
    · simp [State.setPlace, hut, Place.ended]
    · simpa [State.setPlace, hut] using h.ended hroll u hu
  calm := fun v c k hv hne u huv => by
    have hvt : v ≠ t := by
      rintro rfl
      simp [State.setPlace] at hv
    by_cases hut : u = t
    · exact .inl (.inl (by simp [State.setPlace, hut]))
    · have hplace : (s.setPlace t .absent).place u = s.place u := by simp [State.setPlace, hut]
      rw [hplace]
      rcases h.calm v c k (by simpa [State.setPlace, hvt] using hv) hne u huv with hs | hs
      · exact .inl (hs.congr hplace rfl)
      · exact .inr hs

theorem Settled.wakeup {w : Sleep} (h : s.Settled) (ht : s.place t = .woken w) : (s.wakeup t w).Settled := by
  have hne : ∀ c k, s.place t ≠ .committer c k := by
    intro c k
    rw [ht]
    simp
  by_cases hvac : ∀ v c k, s.place v = .committer c k → c.stage = .rolling
  · cases w with
    | cond =>
      have hended : (s.place t).ended = false := by rw [ht]; rfl
      rw [State.wakeup]
      split
      · exact h.leaves hended hne (by simp) hvac (by simp) (by simp)
      · exact (h.setSafe t false).leaves hended hne (by simp) hvac (by simp) (by simp)
    | join v =>
      have hended : (s.place t).ended = false := by rw [ht]; rfl
      rw [State.wakeup]
      -- The joinee has finished: nothing else is new about it.
      have hjoined : s.status v = .waitForReaping → (s.setJoined v true).Settled := by
        intro hv
        refine h.own ((Own.refl s).setJoined v true) hvac h.pending h.rollback (fun hroll u hu => ?_)
        refine h.ended hroll u ?_
        by_cases huv : u = v
        · exact .inr (.inl (huv ▸ hv))
        · simpa [Finished, State.setJoined, huv] using hu
      split
      · rename_i hv
        split
        · exact (hjoined hv).leaves (t := t) hended hne (by simp) hvac (by simp) (by simp)
        · exact ((hjoined hv).setSafe t true).leaves (t := t) hended hne (by simp) hvac (by simp) (by simp)
      · exact (h.setSafe t true).moves hne (by simp) hvac (fun hp => by simp [State.setSafe, ht] at hp) (fun hp => by
          simp [State.setSafe, ht, Place.ended] at hp)
    | reaping =>
      rw [State.wakeup]
      split
      · exact h.exit ht
      · split
        · rename_i hroll
          have hr := h.rollback t hroll
          refine h.own (((Own.refl s).setStatus t _).setPlace hne (by simp)) hvac (fun u hu => ?_) (fun _ _ => hr) (fun hf => by
            rw [hr] at hf
            cases hf)
          have hpu := h.pending u hu
          have hut : u ≠ t := by
            rintro rfl
            rw [ht] at hpu
            cases hpu
          simpa [State.rollbackCurrent, State.setPlace, State.setStatus, hut] using hpu
        · exact h.moves hne (by simp) hvac (fun hp => by rw [ht] at hp; cases hp) (fun _ => rfl)
  · -- An epoch ends: the thread has been joined.
    obtain ⟨v, c, k, hv, hc⟩ : ∃ v c k, s.place v = .committer c k ∧ c.stage ≠ .rolling := by
      by_contra hno
      refine hvac fun v c k hv => ?_
      by_contra hc
      exact hno ⟨v, c, k, hv, hc⟩
    have htv : t ≠ v := by
      rintro rfl
      exact hne c k hv
    rcases h.calm v c k hv hc t htv with (hp | ⟨w', hp, -⟩) | ⟨-, hp, hst⟩
    · rw [ht] at hp
      cases hp
    · rw [ht] at hp
      cases hp
    · rw [ht] at hp
      cases hp
      rw [State.wakeup, if_pos hst]
      exact h.exit ht

/-- Threads are woken up for a rollback only after `global_setRollback`. -/
theorem commit_wakeupOld {us k' : List Nat} (h : s.commit t k c = some s')
    (hp : s'.place t = .committer (.wakeupOldWaitingThreads us) k') :
    s'.isRollback = true ∨ (∃ us', c = .wakeupOldWaitingThreads us') ∧ s'.isRollback = s.isRollback := by
  cases c with
  | setRollback =>
    cases h
    exact .inl rfl
  | wakeupOldWaitingThreads vs =>
    cases vs with
    | nil =>
      cases h
      simp [State.setPlace] at hp
    | cons v vs =>
      cases h
      refine .inr ⟨⟨_, rfl⟩, ?_⟩
      rw [State.wakeupOld]
      split <;> rfl
  | waitSleep | stopped | spin | beginSleep => cases h
  | stop vs =>
    cases vs with
    | nil =>
      cases h
      simp only [State.setPlace, Function.update_self, Place.committer.injEq] at hp
      split at hp <;> cases hp.1
    | cons v vs =>
      simp only [State.commit] at h
      split at h
      · cases h
        simp [State.setPlace] at hp
      · split at h <;> cases h
        simp [State.setPlace] at hp
  | begin vs =>
    cases vs with
    | nil =>
      cases h
      simp [State.setPlace] at hp
    | cons v vs =>
      simp only [State.commit] at h
      split at h <;> cases h <;> simp [State.setPlace] at hp
  | setEpochEnd | waitUnlock | globalUnlock | globalWakeup | epochEndWell | beginUnlock | backup | saveContext =>
    cases h
    simp [State.setPlace] at hp
  | checkWaiters | globalLock | waitLock | waitLoop | waitRelock | rollback | checkRollbackCurrent | reap | runDeferredSyncs
  | beginLock | beginNotify | beginRelock =>
    simp only [State.commit] at h
    split at h <;> cases h <;> simp [State.rollbackCurrent, State.setPlace] at hp

theorem commit_isRollback (h : s.commit t k c = some s') (hr : s.isRollback = true) : s'.isRollback = true := by
  rcases commit_next h with ⟨-, -, hro⟩ | ⟨c', k', -, ⟨-, -, hro | rfl⟩ | ⟨-, -, -, hro⟩ | ⟨-, -, -, hro⟩⟩
  · rw [hro, hr]
  · rw [hro, hr]
  · cases h
    rfl
  · rw [hro, hr]
  · rw [hro, hr]

theorem Settled.commit (h : s.Settled) (ht : s.place t = .committer c k) (hs : s.commit t k c = some s') : s'.Settled := by
  obtain ⟨hhandler, hpending⟩ := commit_signals hs h.handler
  have hun := h.unreleased.commit ht hs
  have hself : (s.place t).ended = false := by rw [ht]; rfl
  -- A joined thread is at its end.
  have hstill : ∀ u, u ≠ t → c.stage ≠ .rolling → ∀ b : Bool, (c.stage.commits = true → b = true) → (c.stage = .committing → b = true) →
      s'.Still u ∨ b = true ∧ s'.place u = .woken .reaping ∧ s'.status u = .exiting := by
    intro u hu hc b hb hb'
    obtain ⟨-, hcase⟩ := commit_others hs u
    rcases hcase with ⟨hst, hp⟩ | ⟨-, hcom, hj, hst, hp⟩ | ⟨hr, -⟩
    · rcases h.calm t c k ht hc u hu with hs' | ⟨hcom, hpl, hex⟩
      · exact .inl (hs'.congr (hp hu) hst)
      · exact .inr ⟨hb hcom, (hp hu).trans hpl, hst.trans hex⟩
    · have hroll : s.isRollback = false := by
        by_contra hroll
        have := (h.unreleased.rollback (by simpa using hroll)).2 t c k ht
        rw [hcom] at this
        cases this
      have hend := h.ended hroll u (.inl hj)
      rcases h.calm t c k ht hc u hu with (hpl | ⟨w, hpl, -⟩) | ⟨-, hpl, -⟩
      · rw [hpl] at hp
        exact .inl (.inl hp)
      · rw [hpl] at hp hend
        cases w with
        | reaping => exact .inr ⟨hb' hcom, hp, hst⟩
        | cond | join => cases hend
      · rw [hpl] at hp
        exact .inr ⟨hb' hcom, hp, hst⟩
    · exact absurd hr hc
  refine ⟨hun, hhandler, fun u hu => ?_, fun u hu => ?_, fun v us k' hv => ?_, fun hroll u hu => ?_, fun v c' k' hv hc' u huv => ?_⟩
  · -- Only a thread that has exited can be signalled.
    have habsent : s.place u = .absent := by
      rcases hpending u hu with hp | ⟨hut, hst, hw⟩
      · exact h.pending u hp
      · rcases h.calm t c k ht (by rw [hst]; simp) u hut with (hp | ⟨w, -, hw'⟩) | ⟨hcom, -⟩
        · exact hp
        · rw [hw] at hw'
          cases hw'
        · rw [hst] at hcom
          cases hcom
    have hut : u ≠ t := by
      rintro rfl
      rw [ht] at habsent
      cases habsent
    rcases commit_place hs hut with hp | hp <;> rw [hp, habsent]
    rfl
  · obtain ⟨-, hcase⟩ := commit_others hs u
    rcases hcase with ⟨hst, -⟩ | ⟨-, -, -, hst, -⟩ | ⟨-, ⟨us, rfl⟩ | hst | hst⟩
    · exact commit_isRollback hs (h.rollback u (hst ▸ hu))
    · rw [hst] at hu
      cases hu
    · exact commit_isRollback hs (h.rolling t us k ht)
    · rw [hst] at hu
      cases hu
    · exact commit_isRollback hs (h.rollback u (hst ▸ hu))
  · have hvt : v = t := by
      by_contra hvt
      exact h.unreleased.one.commit ht hs hvt _ _ hv
    subst hvt
    rcases commit_wakeupOld hs hv with hr | ⟨⟨us', rfl⟩, -⟩
    · exact hr
    · exact commit_isRollback hs (h.rolling v us' k ht)
  · have hroll' : s.isRollback = false := by
      by_contra hr
      rw [commit_isRollback hs (by simpa using hr)] at hroll
      cases hroll
    obtain ⟨hj, hcase⟩ := commit_others hs u
    have hfin : s.Finished u := by
      rcases hcase with ⟨hst, -⟩ | ⟨-, -, hju, -, -⟩ | ⟨-, ⟨us, rfl⟩ | hst | hst⟩
      · rwa [Finished, hj, hst] at hu
      · exact .inl hju
      · rw [h.rolling t us k ht] at hroll'
        cases hroll'
      · rw [Finished, hj, hst] at hu
        exact .inl (by simpa using hu)
      · rwa [Finished, hj, hst] at hu
    have hend := h.ended hroll' u hfin
    have hut : u ≠ t := by
      rintro rfl
      rw [hself] at hend
      cases hend
    rcases commit_place hs hut with hp | hp <;> rw [hp]
    · exact hend
    · exact Place.ended_wake hend
  · have hvt : v = t := by
      by_contra hvt
      exact h.unreleased.one.commit ht hs hvt _ _ hv
    subst hvt
    rcases commit_next hs with ⟨hp, -⟩ | ⟨c'', k'', hp, hcase⟩
    · rw [hp] at hv
      cases hv
    · rw [hp] at hv
      cases hv
      rcases hcase with ⟨hst, -⟩ | ⟨rfl, hst, -⟩ | ⟨rfl, -, hcom, -⟩
      · rcases hst with hst | ⟨hst, hst'⟩
        · refine hstill u huv (hst ▸ hc') _ (fun hcom => hst ▸ hcom) (fun hcom => ?_)
          rw [hst, hcom]
          rfl
        · refine hstill u huv (by rw [hst]; simp) _ (fun hcom => ?_) (fun hcom => ?_)
          · rw [hst] at hcom
            cases hcom
          · rw [hst] at hcom
            cases hcom
      · exact hstill u huv (by decide) _ (by rintro ⟨⟩) (by rintro ⟨⟩)
      · exact hstill u huv (by decide) _ (fun _ => hcom) (fun _ => hcom)

theorem Settled.wakeJoiners (h : s.Settled) (hvac : ∀ t c k, s.place t = .committer c k → c.stage = .rolling) (v : Nat) :
    (s.wakeJoiners v).Settled := by
  have hplace : ∀ u, (s.wakeJoiners v).place u = s.place u ∨
      s.place u = .asleep (.join v) ∧ (s.wakeJoiners v).place u = .woken (.join v) := by
    intro u
    by_cases hu : s.place u = .asleep (.join v)
    · exact .inr ⟨hu, if_pos hu⟩
    · exact .inl (if_neg hu)
  refine h.own ((Own.refl s).wakeJoiners v) hvac (fun u hu => ?_) h.rollback (fun hroll u hu => ?_)
  · have hpu := h.pending u hu
    rcases hplace u with hp | ⟨hp, -⟩
    · rw [hp, hpu]
    · rw [hpu] at hp
      cases hp
  · have hend := h.ended hroll u hu
    rcases hplace u with hp | ⟨hp, -⟩
    · rw [hp]
      exact hend
    · rw [hp] at hend
      cases hend

/-- A thread goes to a place in `epochEnd`. -/
theorem Settled.enters {c' : Committer} {k' : List Nat} (h : s.Settled) (ht : (s.place t).ended = false)
    (hun : (s.setPlace t (.committer c' k')).Unreleased) (hc' : ∀ us, c' ≠ .wakeupOldWaitingThreads us)
    (hcalm : c'.stage ≠ .rolling → ∀ u, u ≠ t →
      s.Still u ∨ c'.stage.commits = true ∧ s.place u = .woken .reaping ∧ s.status u = .exiting) :
    (s.setPlace t (.committer c' k')).Settled := by
  have hself : (s.setPlace t (.committer c' k')).place t = .committer c' k' := by simp [State.setPlace]
  have hother : ∀ u, u ≠ t → (s.setPlace t (.committer c' k')).place u = s.place u := fun u hu => by simp [State.setPlace, hu]
  have hone : ∀ v c k, (s.setPlace t (.committer c' k')).place v = .committer c k → v = t ∧ c = c' := by
    intro v c k hv
    obtain rfl := hun.one _ _ _ _ _ _ hv hself
    rw [hself] at hv
    cases hv
    exact ⟨rfl, rfl⟩
  refine ⟨hun, h.handler, fun u hu => ?_, h.rollback, fun v us k hv => ?_, fun hroll u hu => ?_, fun v c k hv hne u huv => ?_⟩
  · have hpu := h.pending u hu
    have hut : u ≠ t := by
      rintro rfl
      rw [hpu] at ht
      cases ht
    rw [hother u hut, hpu]
  · exact absurd (hone v _ k hv).2.symm (hc' us)
  · have hend := h.ended hroll u hu
    have hut : u ≠ t := by
      rintro rfl
      rw [ht] at hend
      cases hend
    rw [hother u hut]
    exact hend
  · obtain ⟨rfl, rfl⟩ := hone v c k hv
    rw [hother u huv]
    rcases hcalm hne u huv with hs | hs
    · exact .inl (hs.congr (hother u huv) rfl)
    · exact .inr hs

/-- A thread is created while no epoch ends. -/
theorem Settled.create {v : Nat} (h : s.Settled) (hv : s.place v = .absent) (hnot : v ∉ s.alive)
    (hvac : ∀ t c k, s.place t = .committer c k → c.stage = .rolling) : (s.create v).Settled := by
  have hother : ∀ u, u ≠ v → (s.create v).place u = s.place u ∧ (s.create v).status u = s.status u ∧
      (s.create v).pending u = s.pending u ∧ (s.create v).hasJoined u = s.hasJoined u := by
    intro u hu
    simp [State.create, State.setPending, State.setJoined, State.setSpawned, State.setSafe, State.setStatus, State.setPlace, hu]
  have hself : (s.create v).status v = .running ∧ (s.create v).pending v = false ∧ (s.create v).hasJoined v = false := by
    simp [State.create, State.setPending, State.setJoined, State.setSpawned, State.setSafe, State.setStatus]
  refine h.own (Own.create hv hnot) hvac (fun u hu => ?_) (fun u hu => ?_) (fun hroll u hu => ?_) <;>
    by_cases huv : u = v
  · rw [huv, hself.2.1] at hu
    cases hu
  · obtain ⟨hp, -, hpending, -⟩ := hother u huv
    rw [hp]
    exact h.pending u (hpending ▸ hu)
  · rw [huv, hself.1] at hu
    cases hu
  · exact h.rollback u ((hother u huv).2.1 ▸ hu)
  · simp [Finished, huv, hself.1, hself.2.2] at hu
  · obtain ⟨hp, hst, -, hj⟩ := hother u huv
    rw [hp]
    exact h.ended hroll u (by rwa [Finished, hj, hst] at hu)

/-- A thread goes on from `thread_join` while no epoch ends. -/
theorem Settled.deferSync {v w : Nat} (h : s.Settled) (hv : s.place v = .deferSync w) :
    ({ s with deferSyncs := s.deferSyncs ++ [w] }.setPlace v .program).Settled := by
  have hne : ∀ c k, s.place v ≠ .committer c k := by rw [hv]; simp
  have hvac : ∀ t c k, s.place t = .committer c k → c.stage = .rolling := fun _ _ _ ht => h.rolling_of_place (.inr ⟨w, hv⟩) ht
  have hdefer : ({ s with deferSyncs := s.deferSyncs ++ [w] } : State).Settled :=
    h.own ⟨rfl, rfl, rfl, rfl, rfl, fun _ => id, id, fun _ _ _ => Iff.rfl⟩ hvac h.pending h.rollback h.ended
  exact hdefer.moves hne (by simp) hvac (by rw [hv]; simp) (by rw [hv]; rintro ⟨⟩)

/-- The outcome of the epoch is known, and all other threads are still. -/
theorem Settled.outcome {v : Nat} {e : Bool} (h : s.Settled) (hs : s.exec (.outcome v e) = some s') : s'.Settled := by
  have hun := h.unreleased.exec (a := .outcome v e) trivial hs
  simp only [State.exec] at hs
  split at hs
  · rename_i k hp
    have hended : (s.place v).ended = false := by rw [hp]; rfl
    have hstill : ∀ u, u ≠ v → s.Still u := by
      intro u hu
      rcases h.calm v _ k hp (by decide) u hu with hst | ⟨hcom, -⟩
      · exact hst
      · cases hcom
    split at hs
    · split at hs
      · cases hs
        exact h.enters hended hun (by simp) fun _ u hu => .inl (hstill u hu)
      · cases hs
        refine h.enters hended hun ?_ fun _ u hu => .inl (hstill u hu)
        cases e <;> simp
    · cases hs
  · cases hs

/-- A thread wakes up although nobody has woken it. -/
theorem Settled.spurious {v : Nat} (h : s.Settled) (hal : s.alone (.spurious v)) (hs : s.exec (.spurious v) = some s') :
    s'.Settled := by
  have hun := h.unreleased.exec (a := .spurious v) trivial hs
  simp only [State.exec] at hs
  split at hs <;> cases hs
  rename_i hne
  cases hp : s.place v with
  | absent | program | woken w | deferSync w => simp [hp, Place.wake] at hne
  | asleep w =>
    -- The guard lets nobody wake up while an epoch ends.
    have hvac : ∀ t c k, s.place t = .committer c k → c.stage = .rolling := by
      intro t c k ht
      obtain rfl := hal t c k ht
      rw [hp] at ht
      cases ht
    refine h.moves (by rw [hp]; simp) (by rintro _ _ ⟨⟩) hvac (by rw [hp]; simp) fun hend => ?_
    rw [hp] at hend
    exact Place.ended_wake hend
  | committer c k =>
    rw [hp] at hun
    refine h.enters (by rw [hp]; rfl) hun ?_ fun hc u hu => ?_
    · intro us hw
      obtain rfl : c = .wakeupOldWaitingThreads us := by cases c <;> first | exact hw | cases hw
      rw [hp] at hne
      exact hne rfl
    · have hst : c.stage ≠ .rolling := by
        intro hr
        apply hc
        cases c <;> first | exact hr | cases hr
      rcases h.calm v c k hp hst u hu with hs | ⟨hcom, hs⟩
      · exact .inl hs
      · exact .inr ⟨(commits_wake c).trans hcom, hs⟩

theorem Settled.exec (h : s.Settled) (hal : s.alone a) (hs : s.exec a = some s') : s'.Settled := by
  -- An application step is made only while no epoch ends.
  have hvac : ∀ {v : Nat}, s.running v = true → ∀ t c k, s.place t = .committer c k → c.stage = .rolling :=
    fun hr t c k ht => h.rolling_of_running hr ht
  have hprogram : ∀ {v : Nat}, s.running v = true → (s.place v).ended = false := fun hr => by
    rw [(running_iff.mp hr).1]
    rfl
  cases a with
  | program v =>
    simp only [State.exec] at hs
    split at hs <;> cases hs
    exact h
  | mutexLock v | mutexUnlock v =>
    simp only [State.exec] at hs
    split at hs <;> cases hs
    exact h.setSafe v _
  | condWait v =>
    simp only [State.exec] at hs
    split at hs <;> cases hs
    rename_i hr
    exact (h.setSafe v true).leaves (hprogram hr) (not_committer_of_running hr) (by simp) (hvac hr) (by simp) (by simp)
  | condSignal v w =>
    simp only [State.exec] at hs
    split at hs <;> cases hs
    rename_i hr
    exact h.moves (by rw [hr.2]; simp) (by simp) (hvac hr.1) (by rw [hr.2]; simp) (by rw [hr.2]; rintro ⟨⟩)
  | threadCreate v w =>
    simp only [State.exec] at hs
    split at hs <;> cases hs
    rename_i hr
    exact h.create hr.2.2.1 hr.2.2.2.2 (hvac hr.1)
  | threadJoin v w =>
    simp only [State.exec] at hs
    split at hs <;> cases hs
    rename_i hr
    exact (h.setSafe v false).leaves (hprogram hr.1) (not_committer_of_running hr.1) (by simp) (hvac hr.1) (by simp) (by simp)
  | finish v =>
    simp only [State.exec] at hs
    split at hs <;> cases hs
    rename_i hr
    have hw := h.wakeJoiners (hvac hr) v
    have hp : (s.wakeJoiners v).place v = .program := by simp [State.wakeJoiners, (running_iff.mp hr).1]
    exact hw.leaves (by rw [hp]; rfl) (by rw [hp]; simp) (by simp)
      (fun t c k ht => hvac hr t c k ((((Own.refl s).wakeJoiners v).committer t c k).mp ht)) (by simp) (fun _ => rfl)
  | epochEnd v =>
    have hlone : s.lone (.epochEnd v) := by
      intro u c k hu
      by_cases huv : u = v
      · subst huv
        simp only [State.exec] at hs
        split at hs
        · rename_i hr
          exact not_committer_of_running hr c k hu
        · cases hs
      · rcases hal u huv with hp | ⟨w, hp, -⟩ <;> rw [hp] at hu <;> cases hu
    have hun := h.unreleased.exec hlone hs
    simp only [State.exec] at hs
    split at hs <;> cases hs
    rename_i hr
    exact h.enters (hprogram hr) hun (by simp) fun _ u hu => .inl (hal u hu)
  | go v =>
    simp only [State.exec, State.go] at hs
    split at hs
    · split at hs
      case h_1 | h_2 | h_3 => cases hs
      case h_4 w hw =>
        cases hs
        exact h.wakeup hw
      case h_5 w hw =>
        split at hs <;> cases hs
        exact h.deferSync hw
      case h_6 c k hw => exact h.commit hw hs
    · cases hs
  | deliver v =>
    simp only [State.exec] at hs
    split at hs <;> cases hs
    rename_i hr
    exact absurd (h.pending v hr.1) hr.2.2.1
  | handle v =>
    simp [State.exec, h.handler] at hs
  | outcome v e => exact h.outcome hs
  | spurious v => exact h.spurious hal hs
  | spuriousHandler v =>
    simp [State.exec, h.handler] at hs

theorem Began.settled (h : s.Began) : s.Settled where
  unreleased := h.unreleased
  handler := h.handler
  pending := fun u hu => by rw [h.pending] at hu; cases hu
  rollback := fun u hu => by rw [h.status] at hu; cases hu
  rolling := fun t us k ht => absurd ht (h.place_ne t _ k)
  ended := fun _ u hu => by simp [Finished, h.hasJoined, h.status] at hu
  calm := fun t c k ht => absurd ht (h.place_ne t c k)

theorem reachable_settled (h : Reachable (system.restrict alone) s) : s.Settled :=
  Reachable.invariant (S := system.restrict alone) (P := Settled) (fun _ h => h.settled)
    (fun _ _ _ h hs => h.exec hs.1 hs.2) h

/-- An application step can be made only by a thread that runs. -/
theorem running_of_application (ha : a.application = some u) (hs : s.exec a = some s') : s.running u = true := by
  cases a with
  | go | deliver | handle | outcome | spurious | spuriousHandler => cases ha
  | program | mutexLock | mutexUnlock | condWait | finish | epochEnd =>
    cases ha
    simp only [State.exec] at hs
    split at hs
    · assumption
    · cases hs
  | condSignal | threadCreate | threadJoin =>
    cases ha
    simp only [State.exec] at hs
    split at hs
    · rename_i hr
      exact hr.1
    · cases hs

theorem stage_of_saves (h : c.saves = true) : c.stage ≠ .rolling := by
  cases c <;> simp_all [Committer.saves, Committer.stage]

/-- No thread executes a step of the application from the return of `stopAllThreads` until the copy is done. -/
def Quiescent (s : State) : Prop :=
  ∀ t c k, s.place t = .committer c k → c.saves = true → ∀ a s', s.exec a = some s' → a.application = none

theorem quiescent (h : Reachable (system.restrict alone) s) : s.Quiescent := by
  intro t c k ht hc a s' hs
  cases ha : a.application with
  | none => rfl
  | some u =>
    have hst := (reachable_settled h).rolling_of_running (running_of_application ha hs) ht
    exact absurd hst (stage_of_saves hc)

/-- Thread 1 sleeps. -/
def oneAsleep : State := ((two.setStatus 1 .condWaiting).setSafe 1 true).setPlace 1 (.asleep .cond)

theorem oneAsleep_still (hu : u ≠ 0) : oneAsleep.Still u := by
  by_cases hu1 : u = 1
  · subst hu1
    exact .inr ⟨.cond, by decide, by decide⟩
  · refine .inl ?_
    simp [oneAsleep, State.setPlace, State.setSafe, State.setStatus, two, hu, hu1]

/-- Thread 0 commits alone. -/
def committing : List Act := List.replicate 7 (.go 0) ++ [.outcome 0 false] ++ List.replicate 8 (.go 0)

theorem quiescent_two : ∃ s, Reachable (system.restrict alone) s ∧ s.place 0 = .committer .backup [] ∧ s.Quiescent := by
  have hrun : (committing.foldlM State.exec (oneAsleep.setPlace 0 (.committer .checkWaiters []))).map (·.place 0) =
      some (.committer .backup []) := by
    decide +kernel
  have hall : ∀ a ∈ committing, a = .go 0 ∨ a = .outcome 0 false := by decide
  obtain ⟨s, hs, hplace⟩ := Option.map_eq_some_iff.mp hrun
  have hasleep : Reachable (system.restrict alone) oneAsleep := .step (.condWait 1) (.init two_began) ⟨trivial, rfl⟩
  have hend : Reachable (system.restrict alone) (oneAsleep.setPlace 0 (.committer .checkWaiters [])) :=
    .step (.epochEnd 0) hasleep ⟨fun _ hu => oneAsleep_still hu, rfl⟩
  have hreach : Reachable (system.restrict alone) s := by
    refine .of_foldlM (fun s a _ ha h => ⟨?_, h⟩) hend hs
    rcases hall a ha with rfl | rfl <;> trivial
  exact ⟨s, hreach, hplace, quiescent hreach⟩

/-- Thread 0 commits, thread 1 leaves the handler of the signal and runs while the memory is copied. -/
def earlyLeave : List Act :=
  stopping ++ [.outcome 0 false] ++ List.replicate 7 (.go 0) ++ List.replicate 5 (.handle 1) ++ [.go 0, .go 0]

theorem not_quiescent : ¬ ∀ s, Reachable (system.restrict lone) s → s.Quiescent := by
  intro h
  have hrun : (earlyLeave.foldlM State.exec (two.setPlace 0 (.committer .checkWaiters []))).map
      (fun s => (s.place 0, s.running 1)) = some (.committer .backup [1], true) := by
    decide +kernel
  have hall : ∀ a ∈ earlyLeave, a.application = none := by decide
  obtain ⟨s, hs, heq⟩ := Option.map_eq_some_iff.mp hrun
  simp only [Prod.mk.injEq] at heq
  have hreach : Reachable (system.restrict lone) s :=
    .of_foldlM (fun _ _ _ ha h => ⟨lone_of_application (hall _ ha), h⟩) reachable_epochEnd hs
  have hstep : s.exec (.program 1) = some s := by simp [State.exec, heq.2]
  cases h s hreach 0 .backup [1] heq.1 rfl _ _ hstep

end State

end Commit

end DoubleTake
