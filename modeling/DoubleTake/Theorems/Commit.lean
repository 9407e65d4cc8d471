import DoubleTake.Commit

/-! The steps of threads that are stopped and of the one that commits, and what a rollback does to the threads that are
    parked in the handler of the signal. -/

namespace DoubleTake

open Transition

namespace Commit

namespace State

variable {s s' : State} {t u : Nat} {a : Act} {c : Committer} {k : List Nat}

/-- What a thread leaves alone outside of the handler and of `epochEnd` and `epochBegin`. -/
structure Own (s s' : State) : Prop where
  phase : s'.phase = s.phase
  isRollback : s'.isRollback = s.isRollback
  waiters : s'.waiters = s.waiters
  waitersTotal : s'.waitersTotal = s.waitersTotal
  handler : s'.handler = s.handler
  pending : ∀ u, s'.pending u = true → s.pending u = true
  alive : s.alive.Nodup → s'.alive.Nodup
  committer : ∀ u c k, s'.place u = .committer c k ↔ s.place u = .committer c k

/-- A thread changes its place, and neither the old one nor the new one is in `epochEnd` or `epochBegin`. -/
theorem Own.setPlace {p : Place} (h : Own s s') (hold : ∀ c k, s.place t ≠ .committer c k)
    (hnew : ∀ c k, p ≠ .committer c k) : Own s (s'.setPlace t p) where
  phase := h.phase
  isRollback := h.isRollback
  waiters := h.waiters
  waitersTotal := h.waitersTotal
  handler := h.handler
  pending := h.pending
  alive := h.alive
  committer := by
    intro u c k
    by_cases hu : u = t
    · subst hu
      simp [State.setPlace, hnew, hold]
    · simpa [State.setPlace, hu] using h.committer u c k

theorem Own.refl (s : State) : Own s s := ⟨rfl, rfl, rfl, rfl, rfl, fun _ => id, id, fun _ _ _ => Iff.rfl⟩

theorem Own.setStatus (h : Own s s') (u : Nat) (x : ThreadStatus) : Own s (s'.setStatus u x) :=
  ⟨h.phase, h.isRollback, h.waiters, h.waitersTotal, h.handler, h.pending, h.alive, h.committer⟩

theorem Own.setSafe (h : Own s s') (u : Nat) (b : Bool) : Own s (s'.setSafe u b) :=
  ⟨h.phase, h.isRollback, h.waiters, h.waitersTotal, h.handler, h.pending, h.alive, h.committer⟩

theorem Own.setJoined (h : Own s s') (u : Nat) (b : Bool) : Own s (s'.setJoined u b) :=
  ⟨h.phase, h.isRollback, h.waiters, h.waitersTotal, h.handler, h.pending, h.alive, h.committer⟩

theorem Own.wakeJoiners (h : Own s s') (t : Nat) : Own s (s'.wakeJoiners t) where
  phase := h.phase
  isRollback := h.isRollback
  waiters := h.waiters
  waitersTotal := h.waitersTotal
  handler := h.handler
  pending := h.pending
  alive := h.alive
  committer := by
    intro u c k
    rw [← h.committer]
    by_cases hu : s'.place u = .asleep (.join t) <;> simp [State.wakeJoiners, hu]

theorem Own.setSpawned (h : Own s s') (u : Nat) (b : Bool) : Own s (s'.setSpawned u b) :=
  ⟨h.phase, h.isRollback, h.waiters, h.waitersTotal, h.handler, h.pending, h.alive, h.committer⟩

theorem Own.unsetPending (h : Own s s') (u : Nat) : Own s (s'.setPending u false) where
  phase := h.phase
  isRollback := h.isRollback
  waiters := h.waiters
  waitersTotal := h.waitersTotal
  handler := h.handler
  pending := by
    intro v hv
    by_cases hvu : v = u
    · simp [State.setPending, hvu] at hv
    · exact h.pending v (by simpa [State.setPending, hvu] using hv)
  alive := h.alive
  committer := h.committer

theorem Own.insertAlive (hu : u ∉ s.alive) : Own s { s with alive := s.alive ++ [u] } where
  phase := rfl
  isRollback := rfl
  waiters := rfl
  waitersTotal := rfl
  handler := rfl
  pending := fun _ => id
  alive := fun h => List.nodup_append.mpr ⟨h, List.pairwise_singleton _ u, fun _ ha _ hb hab =>
    hu (List.mem_singleton.mp hb ▸ hab ▸ ha)⟩
  committer := fun _ _ _ => Iff.rfl

theorem Own.create (hu : s.place u = .absent) (hnot : u ∉ s.alive) : Own s (s.create u) := by
  have hold : ∀ c k, s.place u ≠ .committer c k := by
    intro c k
    rw [hu]
    nofun
  have hplace := (Own.insertAlive hnot).setPlace hold (p := .program) nofun
  exact ((((hplace.setStatus u _).setSafe u _).setSpawned u _).setJoined u _).unsetPending u

theorem Own.wakeup {w : Sleep} (ht : s.place t = .woken w) : Own s (s.wakeup t w) := by
  have hold : ∀ c k, s.place t ≠ .committer c k := by
    intro c k
    rw [ht]
    nofun
  cases w with
  | cond =>
    rw [State.wakeup]
    split
    · exact ((Own.refl s).setStatus t _).setPlace hold nofun
    · exact (((Own.refl s).setStatus t _).setSafe t _).setPlace hold nofun
  | join v =>
    rw [State.wakeup]
    split
    · split
      · exact (((Own.refl s).setJoined v _).setStatus t _).setPlace hold nofun
      · exact ((((Own.refl s).setJoined v _).setStatus t _).setSafe t _).setPlace hold nofun
    · exact ((Own.refl s).setSafe t _).setPlace hold nofun
  | reaping =>
    rw [State.wakeup]
    split
    · exact (Own.refl s).setPlace hold nofun
    · split
      · exact ((Own.refl s).setStatus t _).setPlace hold nofun
      · exact (Own.refl s).setPlace hold nofun

theorem running_iff : s.running t = true ↔ s.place t = .program ∧ s.handler t = none := by
  simp [State.running]

theorem not_committer_of_running (h : s.running t = true) : ∀ c k, s.place t ≠ .committer c k := by
  intro c k
  rw [(running_iff.mp h).1]
  nofun

/-- Everything that can happen in a step. -/
theorem exec_cases (h : s.exec a = some s') :
    Own s s' ∨
    (∃ t, a = .epochEnd t ∧ s.running t = true ∧ s' = s.setPlace t (.committer .checkWaiters [])) ∨
    (∃ t c k, a = .go t ∧ s.place t = .committer c k ∧ s.commit t k c = some s') ∨
    (∃ t e k, a = .outcome t e ∧ s.place t = .committer .stopped k ∧
      s' = s.setPlace t (.committer (if s.isRollback then .spin else if e then .rollback else .epochEndWell) k)) ∨
    (∃ t c k, a = .spurious t ∧ s.place t = .committer c k ∧ s' = s.setPlace t (.committer c.wake k)) ∨
    (∃ t, a = .deliver t ∧ s.pending t = true ∧ s.handler t = none ∧ s.phase = .epochEnd ∧
      s' = (s.setPending t false).setHandler t (some .lock)) ∨
    (∃ t h, a = .handle t ∧ s.handler t = some h ∧ s.handle t h = some s') ∨
    (∃ t, a = .spuriousHandler t ∧ s.handler t = some .asleep ∧ s' = s.setHandler t (some .relock)) := by
  cases a with
  | program v =>
    simp only [State.exec] at h
    split at h <;> cases h
    exact .inl (Own.refl s)
  | mutexLock v =>
    simp only [State.exec] at h
    split at h <;> cases h
    exact .inl ((Own.refl s).setSafe v _)
  | mutexUnlock v =>
    simp only [State.exec] at h
    split at h <;> cases h
    exact .inl ((Own.refl s).setSafe v _)
  | condWait v =>
    simp only [State.exec] at h
    split at h <;> cases h
    rename_i hr
    exact .inl ((((Own.refl s).setStatus v _).setSafe v _).setPlace (not_committer_of_running hr) nofun)
  | condSignal v w =>
    simp only [State.exec] at h
    split at h <;> cases h
    rename_i hr
    exact .inl ((Own.refl s).setPlace (by rw [hr.2]; nofun) nofun)
  | threadCreate v w =>
    simp only [State.exec] at h
    split at h <;> cases h
    rename_i hr
    exact .inl (Own.create hr.2.2.1 hr.2.2.2.2)
  | threadJoin v w =>
    simp only [State.exec] at h
    split at h <;> cases h
    rename_i hr
    exact .inl ((((Own.refl s).setStatus v _).setSafe v _).setPlace (not_committer_of_running hr.1) nofun)
  | finish v =>
    simp only [State.exec] at h
    split at h <;> cases h
    rename_i hr
    exact .inl ((((Own.refl s).setStatus v _).wakeJoiners v).setPlace (not_committer_of_running hr) nofun)
  | epochEnd v =>
    simp only [State.exec] at h
    split at h <;> cases h
    rename_i hr
    exact .inr (.inl ⟨v, rfl, hr, rfl⟩)
  | go v =>
    simp only [State.exec, State.go] at h
    split at h
    · split at h
      case h_1 | h_2 | h_3 => cases h
      case h_4 w hw =>
        cases h
        exact .inl (Own.wakeup hw)
      case h_5 w hw =>
        split at h <;> cases h
        exact .inl (@Own.setPlace _ _ v .program ⟨rfl, rfl, rfl, rfl, rfl, fun _ => id, id, fun _ _ _ => Iff.rfl⟩
          (by rw [hw]; nofun) nofun)
      case h_6 c k hw => exact .inr (.inr (.inl ⟨v, c, k, rfl, hw, h⟩))
    · cases h
  | deliver v =>
    simp only [State.exec] at h
    split at h <;> cases h
    rename_i hr
    exact .inr (.inr (.inr (.inr (.inr (.inl ⟨v, rfl, hr.1, hr.2.1, hr.2.2.2, rfl⟩)))))
  | handle v =>
    obtain ⟨x, hx, h⟩ := Option.bind_eq_some_iff.mp h
    exact .inr (.inr (.inr (.inr (.inr (.inr (.inl ⟨v, x, rfl, hx, h⟩))))))
  | outcome v e =>
    simp only [State.exec] at h
    split at h
    · rename_i k hk
      refine .inr (.inr (.inr (.inl ⟨v, e, k, rfl, hk, ?_⟩)))
      split at h
      · split at h <;> cases h <;> simp [*]
      · cases h
    · cases h
  | spurious v =>
    simp only [State.exec] at h
    split at h <;> cases h
    rename_i hne
    cases hp : s.place v with
    | absent | program | woken w | deferSync w => simp [hp, Place.wake] at hne
    | asleep w => exact .inl ((Own.refl s).setPlace (by rw [hp]; nofun) nofun)
    | committer c k => exact .inr (.inr (.inr (.inr (.inl ⟨v, c, k, rfl, hp, rfl⟩))))
  | spuriousHandler v =>
    simp only [State.exec] at h
    split at h <;> cases h
    rename_i hr
    exact .inr (.inr (.inr (.inr (.inr (.inr (.inr ⟨v, rfl, hr, rfl⟩))))))

/-- A step in `epochEnd` or `epochBegin` wakes other threads up at most. -/
theorem commit_place (h : s.commit t k c = some s') (hu : u ≠ t) :
    s'.place u = s.place u ∨ s'.place u = (s.place u).wake := by
  have hset : ∀ (x : State) (p : Place), (x.setPlace t p).place u = x.place u := fun x p => by simp [State.setPlace, hu]
  have hwake : ∀ (v : Nat) (x : ThreadStatus),
      ((s.setStatus v x).setPlace v (s.place v).wake).place u = s.place u ∨
        ((s.setStatus v x).setPlace v (s.place v).wake).place u = (s.place u).wake := by
    intro v x
    by_cases hv : u = v
    · subst hv
      exact .inr (by simp [State.setPlace])
    · exact .inl (by simp [State.setPlace, State.setStatus, hv])
  cases c with
  | stop us =>
    cases us with
    | nil =>
      cases h
      exact .inl (hset _ _)
    | cons v us =>
      simp only [State.commit] at h
      split at h
      · cases h
        exact .inl (hset _ _)
      · split at h <;> cases h
        rw [hset, State.kill]
        split <;> exact .inl rfl
  | wakeupOldWaitingThreads us =>
    cases us with
    | nil =>
      cases h
      exact .inl (hset _ _)
    | cons v us =>
      cases h
      rw [hset, State.wakeupOld]
      split
      · exact hwake _ _
      · exact .inl rfl
  | begin us =>
    cases us with
    | nil =>
      cases h
      exact .inl (hset _ _)
    | cons v us =>
      simp only [State.commit] at h
      split at h <;> cases h <;> rw [hset]
      · exact hwake _ _
      · exact .inl rfl
  | checkRollbackCurrent =>
    simp only [State.commit] at h
    split at h <;> cases h
    exact .inl (hset _ _)
  | waitSleep | stopped | spin | beginSleep => cases h
  | setEpochEnd | waitUnlock | globalUnlock | setRollback | globalWakeup | epochEndWell | beginUnlock | backup | saveContext =>
    cases h
    exact .inl (hset _ _)
  | checkWaiters | globalLock | waitLock | waitLoop | waitRelock | rollback | reap | runDeferredSyncs | beginLock | beginNotify
  | beginRelock =>
    simp only [State.commit] at h
    split at h <;> cases h <;> exact .inl (hset _ _)

end State

/-- How far the thread has come: before `global_setEpochEnd`, up to the return of `global_waitThreadsStops`, after it, in
    the rollback, in the commit up to the wakeup of the others, while they leave, and when all have left. -/
inductive Stage where
  | before
  | stopping
  | stopped
  | rolling
  | committing
  | leaving
  | done
  deriving DecidableEq, Repr

def Committer.stage : Committer → Stage
  | .checkWaiters | .setEpochEnd => .before
  | .globalLock | .stop _ | .waitLock | .waitLoop | .waitSleep | .waitRelock => .stopping
  | .waitUnlock | .globalUnlock | .stopped | .spin => .stopped
  | .rollback | .setRollback | .wakeupOldWaitingThreads _ | .globalWakeup | .checkRollbackCurrent => .rolling
  | .epochEndWell | .begin _ | .reap _ _ | .runDeferredSyncs | .beginLock | .beginNotify => .committing
  | .beginSleep => .leaving
  | .beginRelock | .beginUnlock | .backup | .saveContext => .done

/-- The phase is the end of an epoch there. -/
def Stage.closed : Stage → Bool
  | .stopping | .stopped | .rolling | .committing => true
  | _ => false

def Stage.commits : Stage → Bool
  | .committing | .leaving | .done => true
  | _ => false

namespace State

variable {s s' : State} {t u : Nat} {a : Act} {c : Committer} {k : List Nat}

/-- The thread waits in `global_waitForNotification`. -/
def parked (s : State) (u : Nat) : Prop :=
  s.handler u = some .loop ∨ s.handler u = some .asleep ∨ s.handler u = some .relock

/-- No thread ends the epoch while another one does. -/
def lone (s : State) : Act → Prop
  | .epochEnd _ => ∀ u c k, s.place u ≠ .committer c k
  | _ => True

def One (s : State) : Prop :=
  ∀ t c k t' c' k', s.place t = .committer c k → s.place t' = .committer c' k' → t = t'

/-- The phase stays the end of the epoch in a rollback and after it. -/
structure Unreleased (s : State) : Prop where
  one : s.One
  closed : ∀ t c k, s.place t = .committer c k → c.stage.closed = true → s.phase = .epochEnd
  rollback : s.isRollback = true →
    s.phase = .epochEnd ∧ ∀ t c k, s.place t = .committer c k → c.stage.commits = false

theorem wake_ne_committer {p : Place} (h : ∀ c k, p ≠ .committer c k) : ∀ c k, p.wake ≠ .committer c k := by
  intro c k hp
  cases p with
  | committer c' k' => exact h c' k' rfl
  | absent | program | asleep | woken | deferSync => cases hp

theorem One.other (h : s.One) (ht : s.place t = .committer c k) (hu : u ≠ t) : ∀ c' k', s.place u ≠ .committer c' k' :=
  fun _ _ hp => hu (h _ _ _ _ _ _ hp ht)

/-- No other thread gets into `epochEnd` or `epochBegin` by a step of the one that is there. -/
theorem One.commit (h : s.One) (ht : s.place t = .committer c k) (hs : s.commit t k c = some s') (hu : u ≠ t) :
    ∀ c' k', s'.place u ≠ .committer c' k' := by
  have hne := h.other ht hu
  rcases commit_place hs hu with hp | hp <;> rw [hp]
  · exact hne
  · exact wake_ne_committer hne

/-- A step of the one thread in `epochEnd` or `epochBegin`. -/
theorem Unreleased.moved (hother : ∀ u, u ≠ t → ∀ c k, s'.place u ≠ .committer c k)
    (hself : ∀ c k, s'.place t = .committer c k →
      (c.stage.closed = true → s'.phase = .epochEnd) ∧ (s'.isRollback = true → c.stage.commits = false))
    (hroll : s'.isRollback = true → s'.phase = .epochEnd) : s'.Unreleased := by
  have heq : ∀ v c k, s'.place v = .committer c k → v = t := fun v c k hv => by
    by_contra hne
    exact hother v hne c k hv
  constructor
  · intro v c k v' c' k' hv hv'
    rw [heq v c k hv, heq v' c' k' hv']
  · intro v c k hv
    obtain rfl := heq v c k hv
    exact (hself c k hv).1
  · intro hr
    refine ⟨hroll hr, fun v c k hv => ?_⟩
    obtain rfl := heq v c k hv
    exact (hself c k hv).2 hr

/-- Where a step in `epochEnd` or `epochBegin` leads, and what it does to the phase and to the flag of a rollback. -/
theorem commit_next (h : s.commit t k c = some s') :
    (s'.place t = .program ∧ s'.phase = s.phase ∧ s'.isRollback = s.isRollback) ∨
    ∃ c' k', s'.place t = .committer c' k' ∧
      ((c'.stage = c.stage ∨ c.stage = .stopping ∧ c'.stage = .stopped) ∧ s'.phase = s.phase ∧
          (s'.isRollback = s.isRollback ∨ c = .setRollback) ∨
        c = .setEpochEnd ∧ c'.stage = .stopping ∧ s'.phase = .epochEnd ∧ s'.isRollback = s.isRollback ∨
        c = .beginNotify ∧ c'.stage.closed = false ∧ c'.stage.commits = true ∧ s'.isRollback = s.isRollback) := by
  have hset : ∀ (x : State) (p : Place), (x.setPlace t p).place t = p := fun x p => by simp [State.setPlace]
  cases c with
  | waitSleep | stopped | spin | beginSleep => cases h
  | saveContext =>
    cases h
    exact .inl ⟨hset _ _, rfl, rfl⟩
  | checkRollbackCurrent =>
    simp only [State.commit] at h
    split at h <;> cases h
    exact .inl ⟨hset _ _, rfl, rfl⟩
  | setEpochEnd =>
    cases h
    exact .inr ⟨_, _, hset _ _, .inr (.inl ⟨rfl, rfl, rfl, rfl⟩)⟩
  | setRollback =>
    cases h
    exact .inr ⟨_, _, hset _ _, .inl ⟨.inl rfl, rfl, .inr rfl⟩⟩
  | beginNotify =>
    simp only [State.commit] at h
    split at h <;> cases h <;> exact .inr ⟨_, _, hset _ _, .inr (.inr ⟨rfl, rfl, rfl, rfl⟩)⟩
  | stop us =>
    cases us with
    | nil =>
      cases h
      refine .inr ⟨_, _, hset _ _, .inl ⟨?_, rfl, .inl rfl⟩⟩
      split
      · exact .inr ⟨rfl, rfl⟩
      · exact .inl rfl
    | cons v us =>
      simp only [State.commit] at h
      split at h
      · cases h
        exact .inr ⟨_, _, hset _ _, .inl ⟨.inl rfl, rfl, .inl rfl⟩⟩
      · split at h <;> cases h
        have hkill : (s.kill v k).1.phase = s.phase ∧ (s.kill v k).1.isRollback = s.isRollback := by
          rw [State.kill]
          split <;> exact ⟨rfl, rfl⟩
        exact .inr ⟨_, _, hset _ _, .inl ⟨.inl rfl, hkill.1, .inl hkill.2⟩⟩
  | wakeupOldWaitingThreads us =>
    cases us with
    | nil =>
      cases h
      exact .inr ⟨_, _, hset _ _, .inl ⟨.inl rfl, rfl, .inl rfl⟩⟩
    | cons v us =>
      cases h
      have hold : (s.wakeupOld v).phase = s.phase ∧ (s.wakeupOld v).isRollback = s.isRollback := by
        rw [State.wakeupOld]
        split <;> exact ⟨rfl, rfl⟩
      exact .inr ⟨_, _, hset _ _, .inl ⟨.inl rfl, hold.1, .inl hold.2⟩⟩
  | begin us =>
    cases us with
    | nil =>
      cases h
      exact .inr ⟨_, _, hset _ _, .inl ⟨.inl rfl, rfl, .inl rfl⟩⟩
    | cons v us =>
      simp only [State.commit] at h
      split at h <;> cases h <;> exact .inr ⟨_, _, hset _ _, .inl ⟨.inl rfl, rfl, .inl rfl⟩⟩
  | waitLoop =>
    simp only [State.commit] at h
    split at h <;> cases h
    · exact .inr ⟨_, _, hset _ _, .inl ⟨.inl rfl, rfl, .inl rfl⟩⟩
    · exact .inr ⟨_, _, hset _ _, .inl ⟨.inr ⟨rfl, rfl⟩, rfl, .inl rfl⟩⟩
  | waitUnlock | globalUnlock | globalWakeup | epochEndWell | beginUnlock | backup =>
    cases h
    exact .inr ⟨_, _, hset _ _, .inl ⟨.inl rfl, rfl, .inl rfl⟩⟩
  | rollback =>
    simp only [State.commit] at h
    split at h <;> cases h
    exact .inr ⟨_, _, hset _ _, .inl ⟨.inl rfl, rfl, .inl rfl⟩⟩
  | checkWaiters | globalLock | waitLock | waitRelock | reap | runDeferredSyncs | beginLock | beginRelock =>
    simp only [State.commit] at h
    split at h <;> cases h
    exact .inr ⟨_, _, hset _ _, .inl ⟨.inl rfl, rfl, .inl rfl⟩⟩

theorem Unreleased.commit (h : s.Unreleased) (ht : s.place t = .committer c k) (hs : s.commit t k c = some s') :
    s'.Unreleased := by
  have hclosed := h.closed t c k ht
  have hcommits := fun hr => (h.rollback hr).2 t c k ht
  have hphase := fun hr => (h.rollback hr).1
  have hother : ∀ u, u ≠ t → ∀ c k, s'.place u ≠ .committer c k := fun u hu => h.one.commit ht hs hu
  rcases commit_next hs with ⟨hp, hph, hro⟩ | ⟨c', k', hp, hcase⟩
  · refine moved hother (fun c k hc => ?_) (fun hr => ?_)
    · rw [hp] at hc
      cases hc
    · rw [hph]
      exact hphase (hro ▸ hr)
  · have hself : ∀ {P : Committer → Prop}, P c' → ∀ c k, s'.place t = .committer c k → P c := by
      intro P hP c k hc
      rw [hp] at hc
      cases hc
      exact hP
    rcases hcase with ⟨hst, hph, hro⟩ | ⟨rfl, hst, hph, hro⟩ | ⟨rfl, hst, -, hro⟩
    · -- The stage is closed as before, and it is not one of a commit unless it was.
      have hcl : c'.stage.closed = true → c.stage.closed = true := by
        rcases hst with hst | ⟨hst, hst'⟩
        · rw [hst]
          exact id
        · rw [hst]
          exact fun _ => rfl
      have hco : c.stage.commits = false → c'.stage.commits = false := by
        rcases hst with hst | ⟨hst, hst'⟩
        · rw [hst]
          exact id
        · rw [hst']
          exact fun _ => rfl
      rcases hro with hro | rfl
      · refine moved hother (hself ⟨fun hc => ?_, fun hr => ?_⟩) (fun hr => ?_)
        · rw [hph]
          exact hclosed (hcl hc)
        · exact hco (hcommits (hro ▸ hr))
        · rw [hph]
          exact hphase (hro ▸ hr)
      · refine moved hother (hself ⟨fun hc => ?_, fun hr => ?_⟩) (fun hr => ?_)
        · rw [hph]
          exact hclosed rfl
        · exact hco rfl
        · rw [hph]
          exact hclosed rfl
    · refine moved hother (hself ⟨fun _ => hph, fun _ => ?_⟩) (fun _ => hph)
      rw [hst]
      rfl
    · -- No rollback has happened: the thread is in the commit.
      have hno : s'.isRollback ≠ true := by
        intro hr
        have := hcommits (hro ▸ hr)
        cases this
      refine moved hother (hself ⟨fun hc => ?_, fun hr => absurd hr hno⟩) (fun hr => absurd hr hno)
      rw [hst] at hc
      cases hc

theorem closed_wake (c : Committer) : c.wake.stage.closed = c.stage.closed := by cases c <;> rfl

theorem commits_wake (c : Committer) : c.wake.stage.commits = c.stage.commits := by cases c <;> rfl

/-- The phase stays, and who ends the epoch is woken up at most. -/
theorem Unreleased.woken (h : s.Unreleased) (hphase : s'.phase = s.phase) (hroll : s'.isRollback = s.isRollback)
    (hplace : ∀ u c k, s'.place u = .committer c k → ∃ c₀ k₀, s.place u = .committer c₀ k₀ ∧ (c = c₀ ∨ c = c₀.wake)) :
    s'.Unreleased := by
  have hcl : ∀ {c c₀ : Committer}, c = c₀ ∨ c = c₀.wake → c.stage.closed = c₀.stage.closed := by
    rintro c c₀ (rfl | rfl)
    · rfl
    · exact closed_wake c₀
  have hco : ∀ {c c₀ : Committer}, c = c₀ ∨ c = c₀.wake → c.stage.commits = c₀.stage.commits := by
    rintro c c₀ (rfl | rfl)
    · rfl
    · exact commits_wake c₀
  constructor
  · intro t c k t' c' k' ht ht'
    obtain ⟨_, _, h₀, -⟩ := hplace t c k ht
    obtain ⟨_, _, h₀', -⟩ := hplace t' c' k' ht'
    exact h.one _ _ _ _ _ _ h₀ h₀'
  · intro t c k ht hc
    obtain ⟨c₀, k₀, h₀, hw⟩ := hplace t c k ht
    rw [hphase]
    exact h.closed t c₀ k₀ h₀ (hcl hw ▸ hc)
  · intro hr
    rw [hroll] at hr
    refine ⟨hphase ▸ (h.rollback hr).1, fun t c k ht => ?_⟩
    obtain ⟨c₀, k₀, h₀, hw⟩ := hplace t c k ht
    rw [hco hw]
    exact (h.rollback hr).2 t c₀ k₀ h₀

/-- In the handler a thread wakes the one that ends the epoch up at most. -/
theorem handle_place {x : Handler} (h : s.handle t x = some s') :
    s'.phase = s.phase ∧ s'.isRollback = s.isRollback ∧
      ∀ u c k, s'.place u = .committer c k → ∃ c₀ k₀, s.place u = .committer c₀ k₀ ∧ (c = c₀ ∨ c = c₀.wake) := by
  have hsame : ∀ u c k, s.place u = .committer c k → ∃ c₀ k₀, s.place u = .committer c₀ k₀ ∧ (c = c₀ ∨ c = c₀.wake) :=
    fun u c k hu => ⟨c, k, hu, .inl rfl⟩
  have hsignal : ∀ u c k, (s.place u).wakeCommitter = .committer c k →
      ∃ c₀ k₀, s.place u = .committer c₀ k₀ ∧ (c = c₀ ∨ c = c₀.wake) := by
    intro u c k hu
    cases hp : s.place u with
    | committer c₀ k₀ =>
      rw [hp] at hu
      cases hu
      exact ⟨c₀, k, rfl, .inr rfl⟩
    | absent | program | asleep | woken | deferSync =>
      rw [hp] at hu
      cases hu
  cases x with
  | asleep => cases h
  | arrive | leave =>
    cases h
    split
    · exact ⟨rfl, rfl, hsignal⟩
    · exact ⟨rfl, rfl, hsame⟩
  | unlock =>
    cases h
    exact ⟨rfl, rfl, hsame⟩
  | lock | loop | relock =>
    simp only [State.handle] at h
    split at h <;> cases h <;> exact ⟨rfl, rfl, hsame⟩
  | resume =>
    simp only [State.handle] at h
    split at h
    · cases h
      exact ⟨rfl, rfl, hsame⟩
    · split at h <;> cases h
      exact ⟨rfl, rfl, hsame⟩
  | rollback =>
    simp only [State.handle] at h
    split at h <;> cases h
    refine ⟨rfl, rfl, fun u c k hu => ?_⟩
    by_cases hut : u = t
    · simp [State.setPlace, hut] at hu
    · exact hsame u c k (by simpa [State.setPlace, State.setHandler, hut] using hu)

theorem Unreleased.exec (h : s.Unreleased) (hlone : s.lone a) (hs : s.exec a = some s') : s'.Unreleased := by
  rcases exec_cases hs with hown | ⟨t, rfl, -, rfl⟩ | ⟨t, c, k, -, ht, hs⟩ | ⟨t, e, k, -, ht, rfl⟩ |
    ⟨t, c, k, -, ht, rfl⟩ | ⟨t, -, -, -, -, rfl⟩ | ⟨t, x, -, -, hs⟩ | ⟨t, -, -, rfl⟩
  · exact h.woken hown.phase hown.isRollback fun u c k hu => ⟨c, k, (hown.committer u c k).mp hu, .inl rfl⟩
  · refine moved (t := t) (fun u hu c k => ?_) (fun c k hc => ?_) (fun hr => (h.rollback hr).1)
    · simpa [State.setPlace, hu] using hlone u c k
    · obtain ⟨rfl, -⟩ : Committer.checkWaiters = c ∧ [] = k := by simpa [State.setPlace] using hc
      exact ⟨nofun, fun _ => rfl⟩
  · exact h.commit ht hs
  · refine moved (t := t) (fun u hu => ?_) (fun c' k' hc => ?_) (fun hr => (h.rollback hr).1)
    · simpa [State.setPlace, hu] using h.one.other ht hu
    · have hphase : s.phase = .epochEnd := h.closed t _ k ht rfl
      refine ⟨fun _ => hphase, fun hr => ?_⟩
      have hr' : s.isRollback = true := hr
      rw [if_pos hr'] at hc
      obtain ⟨rfl, -⟩ : Committer.spin = c' ∧ k = k' := by simpa [State.setPlace] using hc
      rfl
  · refine h.woken rfl rfl fun u c' k' hu => ?_
    by_cases hut : u = t
    · subst hut
      obtain ⟨rfl, rfl⟩ : c.wake = c' ∧ k = k' := by simpa [State.setPlace] using hu
      exact ⟨c, k, ht, .inr rfl⟩
    · exact ⟨c', k', by simpa [State.setPlace, hut] using hu, .inl rfl⟩
  · exact h.woken rfl rfl fun u c k hu => ⟨c, k, hu, .inl rfl⟩
  · obtain ⟨hphase, hroll, hplace⟩ := handle_place hs
    exact h.woken hphase hroll hplace
  · exact h.woken rfl rfl fun u c k hu => ⟨c, k, hu, .inl rfl⟩

theorem Began.place_ne (h : s.Began) : ∀ t c k, s.place t ≠ .committer c k := by
  intro t c k
  rw [h.place]
  split <;> nofun

theorem Began.unreleased (h : s.Began) : s.Unreleased where
  one := fun t c k _ _ _ ht => absurd ht (h.place_ne t c k)
  closed := fun t c k ht => absurd ht (h.place_ne t c k)
  rollback := fun hr => by rw [h.isRollback] at hr; cases hr

theorem reachable_unreleased (h : Reachable (system.restrict lone) s) : s.Unreleased :=
  Reachable.invariant (S := system.restrict lone) (P := Unreleased) (fun _ h => h.unreleased)
    (fun _ _ _ h hs => h.exec hs.1 hs.2) h

/-- After `global_setRollback`, also when `global_wakeup` has been executed, the condition in the loop of
    `global_waitForNotification` is false for each thread that is parked there only if there is none. -/
theorem parked_released_iff (h : Reachable (system.restrict lone) s) (hroll : s.isRollback = true) :
    (∀ u, s.parked u → s.phase ≠ .epochEnd) ↔ ∀ u, ¬ s.parked u := by
  have hphase := ((reachable_unreleased h).rollback hroll).1
  exact ⟨fun hrel u hu => hrel u hu hphase, fun hno u hu => absurd hu (hno u)⟩

/-- Two threads in an epoch. -/
def two : State where
  phase := .epochBegin
  isRollback := false
  hasRollbacked := false
  waiters := 0
  waitersTotal := 0
  mutex := none
  mutexSignalhandler := none
  alive := [0, 1]
  deferSyncs := []
  place := fun t => if t ∈ [0, 1] then .program else .absent
  handler := fun _ => none
  pending := fun _ => false
  status := fun _ => .running
  isSafe := fun _ => true
  isNewlySpawned := fun _ => false
  hasJoined := fun _ => false

theorem two_began : two.Began :=
  ⟨nofun, rfl, rfl, rfl, rfl, rfl, by decide, fun _ => rfl, fun _ => rfl, fun _ => rfl, fun _ => rfl, fun _ => rfl⟩

/-- Thread 0 stops thread 1, which parks. -/
def stopping : List Act :=
  List.replicate 8 (.go 0) ++ [.deliver 1, .handle 1, .handle 1, .handle 1] ++ List.replicate 4 (.go 0)

theorem lone_of_application (h : a.application = none) : s.lone a := by
  cases a with
  | epochEnd => cases h
  | _ => trivial

theorem reachable_epochEnd : Reachable (system.restrict lone) (two.setPlace 0 (.committer .checkWaiters [])) :=
  .step (.epochEnd 0) (.init two_began) ⟨two_began.place_ne, rfl⟩

/-- Thread 0 rolls back while thread 1 is parked; thread 1 is woken up. -/
def rollingBack : List Act := stopping ++ [.outcome 0 true] ++ List.replicate 6 (.go 0) ++ [.handle 1, .handle 1]

theorem rollingBack_reaches : ∃ s, Reachable (system.restrict lone) s ∧ s.isRollback = true ∧
    s.place 0 = .committer .checkRollbackCurrent [1] ∧ s.handler 1 = some .asleep ∧ s.phase = .epochEnd := by
  have hrun : (rollingBack.foldlM State.exec (two.setPlace 0 (.committer .checkWaiters []))).map
      (fun s => (s.isRollback, s.place 0, s.handler 1, s.phase)) =
        some (true, .committer .checkRollbackCurrent [1], some .asleep, .epochEnd) := by
    decide +kernel
  have hall : ∀ a ∈ rollingBack, a.application = none := by decide
  obtain ⟨s, hs, heq⟩ := Option.map_eq_some_iff.mp hrun
  simp only [Prod.mk.injEq] at heq
  exact ⟨s, .of_foldlM (fun _ _ _ ha h => ⟨lone_of_application (hall _ ha), h⟩) reachable_epochEnd hs, heq⟩

theorem parked_released_two : ∃ s, Reachable (system.restrict lone) s ∧ s.isRollback = true ∧
    ((∀ u, s.parked u → s.phase ≠ .epochEnd) ↔ ∀ u, ¬ s.parked u) := by
  obtain ⟨s, hs, hroll, -⟩ := rollingBack_reaches
  exact ⟨s, hs, hroll, parked_released_iff hs hroll⟩

/-- Thread 1 is woken up by `global_wakeup`, finds that the phase is still the end of the epoch, and waits again. -/
theorem parked_waits_again : ¬ ∀ s, Reachable (system.restrict lone) s → s.isRollback = true →
    ∀ t k, s.place t = .committer .checkRollbackCurrent k → ∀ u, s.parked u → s.phase ≠ .epochEnd := by
  intro h
  obtain ⟨s, hs, hroll, hplace, hhandler, hphase⟩ := rollingBack_reaches
  exact h s hs hroll 0 [1] hplace 1 (.inr (.inl hhandler)) hphase

end State

end Commit

end DoubleTake
