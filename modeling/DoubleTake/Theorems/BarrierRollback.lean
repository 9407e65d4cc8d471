import Mathlib.Data.Set.Card
import DoubleTake.Theorems.Barrier

/-! A barrier across a rollback. `checkRollback` takes a thread out of `barrier_wait` without counting it down, so
    `waitingThreads` is left as it is at the end of the epoch: it is what it was at the begin only if as many threads were
    inside then. -/

namespace DoubleTake

open Transition

namespace Barrier

/-- How many arrivals end the arrival phase. -/
def State.arrivalsLeft (s : State) : Int := s.maxThreads - s.waitingThreads

/-- It is the arrivals that are left that decide which of them is the last one. -/
theorem arrive_last {s : State} {t : Nat} (hp : s.isArrivalPhase = true) :
    ((s.arrive t).isArrivalPhase = false ↔ s.arrivalsLeft ≤ 1) ∧ (s.arrive t).arrivalsLeft = s.arrivalsLeft - 1 := by
  rw [State.arrive, State.arrivalsLeft]
  dsimp only
  split
  · simp only [State.setPlace, State.broadcast, State.arrivalsLeft, true_iff]
    omega
  · simp only [State.setPlace, State.arrivalsLeft, hp, Bool.true_eq_false, false_iff]
    omega

theorem go_maxThreads {s s' : State} {t : Nat} (hs : s.go t = some s') : s'.maxThreads = s.maxThreads := by
  have hlock : ∀ p, s.lock t p = some s' → s'.maxThreads = s.maxThreads := by
    intro p hs
    rw [State.lock] at hs
    split at hs <;> cases hs
    rfl
  rw [State.go] at hs
  split at hs
  case h_1 | h_4 | h_7 => cases hs
  case h_2 | h_5 | h_8 => exact hlock _ hs
  case h_3 =>
    split at hs <;> cases hs
    · rw [State.arrive]
      dsimp only
      split <;> rfl
    · rfl
  case h_6 => split at hs <;> cases hs <;> rfl
  case h_9 =>
    cases hs
    rw [State.depart]
    dsimp only
    split <;> rfl
  case h_10 =>
    cases hs
    rfl

theorem exec_maxThreads {s s' : State} {a : Act} (hs : s.exec a = some s') : s'.maxThreads = s.maxThreads := by
  cases a with
  | wait t | spurious t =>
    simp only [State.exec] at hs
    split at hs <;> cases hs
    rfl
  | go t => exact go_maxThreads hs

namespace Epochs

variable {n t : Nat} {threads : List Nat} {s s' : Epochs}

/-- All the threads have been rolled back and none of them has gone on: the barrier is as it was at the begin of the epoch. -/
def Restores (threads : List Nat) (s : Epochs) : Prop :=
  s.isRollback = true → s.replayed = false → (∀ t ∈ threads, s.restored t = true) →
    s.barrier.waitingThreads = s.start.waitingThreads ∧ s.barrier.isArrivalPhase = s.start.isArrivalPhase ∧
    s.barrier.arrivalsLeft = s.start.arrivalsLeft

/-- A rollback begins in an arrival phase, as the epoch has, with as many threads inside the barrier as the epoch. -/
def rollsBackAsBegun (s : Epochs) : EpochAct → Prop
  | .rollback => s.barrier.isArrivalPhase = true ∧ s.start.isArrivalPhase = true ∧
      {t | (s.barrier.place t).inside = true}.ncard = {t | (s.start.place t).inside = true}.ncard
  | _ => True

theorem ncard_inside {s : State} (h : Counts s) : ({t | (s.place t).inside = true}.ncard : Int) = s.waitingThreads := by
  obtain ⟨F, hF, hcard⟩ := h
  have hset : {t | (s.place t).inside = true} = (F : Set Nat) := by
    ext t
    rw [Set.mem_ofPred_eq, Finset.mem_coe, hF]
  rw [hset, Set.ncard_coe_finset, hcard]

/-- Before a rollback. -/
structure Recording (s : Epochs) : Prop where
  barrier : Counts s.barrier
  start : Counts s.start
  maxThreads : s.barrier.maxThreads = s.start.maxThreads
  parked : ∀ t, s.parked t = false
  marked : ∀ t, s.marked t = false
  restored : ∀ t, s.restored t = false
  replayed : s.replayed = false

/-- Where a thread can be while the threads are rolled back. -/
def Leaving (s : Epochs) (t : Nat) : Prop :=
  s.barrier.place t = .loop ∨ s.condWaiting t ∨ s.barrier.place t = .outside ∧ (s.parked t = true ∨ s.restored t = true)

/-- While the threads are rolled back. -/
structure RollingBack (threads : List Nat) (s : Epochs) : Prop where
  waitingThreads : s.barrier.waitingThreads = s.start.waitingThreads
  maxThreads : s.barrier.maxThreads = s.start.maxThreads
  barrier : s.barrier.isArrivalPhase = true
  start : s.start.isArrivalPhase = true
  leaving : ∀ t ∈ threads, s.Leaving t

structure Inv (threads : List Nat) (s : Epochs) : Prop where
  recording : s.isRollback = false → s.Recording
  rollingBack : s.isRollback = true → s.replayed = false → s.RollingBack threads

theorem Recording.of_init : (init n).Recording :=
  ⟨.of_init n, .of_init n, rfl, fun _ => rfl, fun _ => rfl, fun _ => rfl, rfl⟩

theorem Recording.act {a : Act} (h : s.Recording) (hs : s.exec threads (.barrier a) = some s') : s'.Recording := by
  simp only [exec, h.marked, Bool.false_eq_true, and_false, if_false] at hs
  split at hs
  · obtain ⟨b, hb, rfl⟩ := Option.map_eq_some_iff.mp hs
    refine ⟨h.barrier.exec hb, h.start, (exec_maxThreads hb).trans h.maxThreads, h.parked, h.marked, h.restored, ?_⟩
    simp only [h.replayed, h.restored, Bool.or_self]
  · cases hs

/-- The rollback begins. -/
theorem Recording.rollback (h : s.Recording) (hg : s.rollsBackAsBegun .rollback) (hstop : s.Stopped threads) :
    { s with isRollback := true, parked := fun t => decide (s.barrier.place t = Place.outside) }.RollingBack threads := by
  obtain ⟨hp, hp₀, hcard⟩ := hg
  refine ⟨?_, h.maxThreads, hp, hp₀, fun t ht => ?_⟩
  · rw [← ncard_inside h.barrier, ← ncard_inside h.start, hcard]
  · rcases hstop t ht with hout | hwait
    · exact .inr (.inr ⟨hout, .inl (decide_eq_true hout)⟩)
    · exact .inr (.inl hwait)

/-- One thread goes to another place. -/
theorem RollingBack.setPlace {p : Place} (h : s.RollingBack threads) (o : Option Nat) (marked : Nat → Bool) {restored : Nat → Bool}
    (hold : ∀ u, s.restored u = true → restored u = true)
    (hp : p = .loop ∨ p = .loopSleep ∨ p = .loopRelock ∨ p = .outside ∧ restored t = true) :
    { s with
      barrier := (s.barrier.setMutex o).setPlace t p
      marked := marked
      restored := restored }.RollingBack threads := by
  refine ⟨h.waitingThreads, h.maxThreads, h.barrier, h.start, fun u hu => ?_⟩
  by_cases hut : u = t
  · subst hut
    simp only [Leaving, condWaiting, State.setPlace, Function.update_self]
    rcases hp with hp | hp | hp | ⟨hp, hr⟩
    · exact .inl hp
    · exact .inr (.inl (.inl hp))
    · exact .inr (.inl (.inr hp))
    · exact .inr (.inr ⟨hp, .inr hr⟩)
  · simp only [Leaving, condWaiting, State.setPlace, State.setMutex, Function.update_of_ne hut]
    rcases h.leaving u hu with hl | hl | ⟨hl, hr⟩
    · exact .inl hl
    · exact .inr (.inl hl)
    · exact .inr (.inr ⟨hl, hr.imp_right (hold u)⟩)

theorem RollingBack.checkRollback (h : s.RollingBack threads) (hs : s.checkRollback t = some s') : s'.RollingBack threads := by
  obtain ⟨b, hb, rfl⟩ := Option.map_eq_some_iff.mp hs
  rw [State.lock] at hb
  split at hb
  · cases hb
    have hplace : (((s.barrier.setMutex (some t)).setPlace t .loop).setMutex none).setPlace t .outside =
        (s.barrier.setMutex none).setPlace t .outside := by
      simp [State.setPlace, State.setMutex]
    rw [hplace]
    refine h.setPlace none _ (fun u hu => ?_) (.inr (.inr (.inr ⟨rfl, Function.update_self ..⟩)))
    by_cases hut : u = t
    · subst hut
      exact Function.update_self ..
    · rwa [Function.update_of_ne hut]
  · cases hb

/-- A thread that has not been marked goes back to sleep. -/
theorem RollingBack.go {b : State} {replayed : Bool} (h : s.RollingBack threads) (hl : s.barrier.place t = .loop ∨ s.condWaiting t)
    (hb : s.barrier.go t = some b) : { s with barrier := b, replayed := replayed }.RollingBack threads := by
  have key : ∀ o p, p = .loop ∨ p = .loopSleep ∨ p = .loopRelock →
      { s with barrier := (s.barrier.setMutex o).setPlace t p, replayed := replayed }.RollingBack threads := by
    intro o p hp
    have hset := h.setPlace (t := t) o s.marked (fun _ hu => hu) (hp.imp_right (Or.imp_right .inl))
    exact ⟨hset.waitingThreads, hset.maxThreads, hset.barrier, hset.start, hset.leaving⟩
  rw [State.go] at hb
  rcases hl with hl | hl | hl <;> rw [hl] at hb
  · dsimp only at hb
    rw [if_pos h.barrier] at hb
    cases hb
    exact key none .loopSleep (.inr (.inl rfl))
  · cases hb
  · dsimp only at hb
    rw [State.lock] at hb
    split at hb
    · cases hb
      exact key (some t) .loop (.inl rfl)
    · cases hb

theorem RollingBack.act {a : Act} (h : s.RollingBack threads) (hs : s.exec threads (.barrier a) = some s')
    (hr : s'.replayed = false) : s'.RollingBack threads := by
  simp only [exec] at hs
  split at hs
  · rename_i hcan
    obtain ⟨hmem, hparked⟩ := hcan
    split at hs
    · exact h.checkRollback hs
    · obtain ⟨b, hb, rfl⟩ := Option.map_eq_some_iff.mp hs
      -- a thread that is outside has been rolled back
      have hl : s.barrier.place a.thread = .loop ∨ s.condWaiting a.thread := by
        rcases h.leaving _ hmem with hl | hl | ⟨-, hl⟩
        · exact .inl hl
        · exact .inr hl
        · simp only [hparked, Bool.false_eq_true, false_or] at hl
          simp only [hl, Bool.or_true, Bool.true_eq_false] at hr
      cases a with
      | wait t =>
        simp only [State.exec] at hb
        split at hb
        · rename_i hout
          simp only [Act.thread, condWaiting, hout, reduceCtorEq, or_self] at hl
        · cases hb
      | go t => exact h.go hl hb
      | spurious t =>
        simp only [State.exec] at hb
        split at hb
        · rename_i hsleep
          cases hb
          have hwake : (s.barrier.place t).wake = .loopRelock := by
            simp only [Act.thread, condWaiting] at hl
            rcases hsleep with hsleep | hsleep <;> simp_all [Place.wake]
          have hset := h.setPlace (t := t) s.barrier.mutex s.marked (fun _ hu => hu) (.inr (.inr (.inl hwake)))
          exact ⟨hset.waitingThreads, hset.maxThreads, hset.barrier, hset.start, hset.leaving⟩
        · cases hb
  · cases hs

theorem RollingBack.signal {woken : Option Nat} {marked : Nat → Bool} (h : s.RollingBack threads)
    (hs : { s with marked := marked }.signal threads woken = some s') : s'.RollingBack threads := by
  cases woken with
  | none =>
    rw [Epochs.signal] at hs
    split at hs
    · cases hs
      exact ⟨h.waitingThreads, h.maxThreads, h.barrier, h.start, h.leaving⟩
    · cases hs
  | some u =>
    cases hs
    refine ⟨h.waitingThreads, h.maxThreads, h.barrier, h.start, fun v hv => ?_⟩
    by_cases hvu : v = u
    · subst hvu
      simp only [Leaving, condWaiting, State.setPlace, Function.update_self]
      rcases h.leaving v hv with hl | (hl | hl) | ⟨hl, hr⟩ <;> rw [hl]
      · exact .inl rfl
      · exact .inr (.inl (.inr rfl))
      · exact .inr (.inl (.inr rfl))
      · exact .inr (.inr ⟨rfl, hr⟩)
    · simp only [Leaving, condWaiting, State.setPlace, Function.update_of_ne hvu]
      exact h.leaving v hv

theorem RollingBack.restore (h : s.RollingBack threads) :
    { s with parked := Function.update s.parked t false, restored := Function.update s.restored t true }.RollingBack threads := by
  refine ⟨h.waitingThreads, h.maxThreads, h.barrier, h.start, fun u hu => ?_⟩
  rcases h.leaving u hu with hl | hl | ⟨hl, hr⟩
  · exact .inl hl
  · exact .inr (.inl hl)
  · refine .inr (.inr ⟨hl, ?_⟩)
    by_cases hut : u = t
    · subst hut
      exact .inr (Function.update_self ..)
    · simpa only [Function.update_of_ne hut] using hr

theorem Inv.exec {a : EpochAct} (h : s.Inv threads) (hg : s.rollsBackAsBegun a) (hs : s.exec threads a = some s') :
    s'.Inv threads := by
  cases a with
  | barrier a =>
    have hsame : s'.isRollback = s.isRollback ∧ (s'.replayed = false → s.replayed = false) := by
      simp only [Epochs.exec] at hs
      split at hs
      · split at hs
        · obtain ⟨b, -, rfl⟩ := Option.map_eq_some_iff.mp hs
          exact ⟨rfl, id⟩
        · obtain ⟨b, -, rfl⟩ := Option.map_eq_some_iff.mp hs
          exact ⟨rfl, fun hr => (Bool.or_eq_false_iff.mp hr).1⟩
      · cases hs
    constructor
    · intro hr
      exact (h.recording (hsame.1 ▸ hr)).act hs
    · intro hr hrep
      exact (h.rollingBack (hsame.1 ▸ hr) (hsame.2 hrep)).act hs hrep
  | epochBegin =>
    simp only [Epochs.exec] at hs
    split at hs
    · rename_i hcan
      cases hs
      have hrec := h.recording hcan.1
      refine ⟨fun _ => ⟨hrec.barrier, hrec.barrier, rfl, hrec.parked, hrec.marked, hrec.restored, hrec.replayed⟩, fun hr => ?_⟩
      rw [hcan.1] at hr
      cases hr
    · cases hs
  | rollback =>
    simp only [Epochs.exec] at hs
    split at hs
    · rename_i hcan
      cases hs
      exact ⟨nofun, fun _ _ => (h.recording hcan.1).rollback hg hcan.2⟩
    · cases hs
  | wakeup t woken =>
    simp only [Epochs.exec] at hs
    split at hs
    · rename_i hcan
      have hsame : s'.isRollback = true ∧ s'.replayed = s.replayed := by
        cases woken with
        | none =>
          rw [Epochs.signal] at hs
          split at hs <;> cases hs
          exact ⟨hcan.1, rfl⟩
        | some u =>
          cases hs
          exact ⟨hcan.1, rfl⟩
      constructor
      · intro hr
        rw [hsame.1] at hr
        cases hr
      · intro _ hrep
        exact (h.rollingBack hcan.1 (hsame.2 ▸ hrep)).signal hs
    · cases hs
  | restore t =>
    simp only [Epochs.exec] at hs
    split at hs
    · rename_i hparked
      cases hs
      constructor
      · intro hr
        rw [(h.recording hr).parked] at hparked
        cases hparked
      · exact fun hr hrep => (h.rollingBack hr hrep).restore
    · cases hs

/-- In every run in which a rollback begins as the epoch has begun. -/
theorem rollback_restores (h : Reachable ((epochs n threads).restrict rollsBackAsBegun) s) : s.Restores threads := by
  have hinv : s.Inv threads := by
    refine Reachable.invariant (S := (epochs n threads).restrict rollsBackAsBegun) (P := Inv threads) ?_ ?_ h
    · rintro s rfl
      exact ⟨fun _ => .of_init, nofun⟩
    · intro s a s' h hs
      exact h.exec hs.1 hs.2
  intro hr hrep _
  have hback := hinv.rollingBack hr hrep
  refine ⟨hback.waitingThreads, hback.barrier.trans hback.start.symm, ?_⟩
  rw [State.arrivalsLeft, State.arrivalsLeft, hback.maxThreads, hback.waitingThreads]

/-- Thread 0 waits in the barrier from the begin of the epoch to its end. -/
theorem rollback_restores_sleeper : ∃ s, Reachable ((epochs 2 [0, 1]).restrict rollsBackAsBegun) s ∧
    s.isRollback = true ∧ s.replayed = false ∧ (∀ t ∈ [0, 1], s.restored t = true) ∧ s.start.waitingThreads = 1 ∧
    s.Restores [0, 1] := by
  let b := ((((Barrier.init 2).setPlace 0 .lock).setMutex (some 0)).setPlace 0 .arrival).arrive 0
  let s₁ : Epochs := { init 2 with barrier := (b.setMutex none).setPlace 0 .loopSleep, start := (b.setMutex none).setPlace 0 .loopSleep }
  let s₂ : Epochs := { s₁ with isRollback := true, parked := fun t => decide (s₁.barrier.place t = Place.outside) }
  have hpre : ([.barrier (.wait 0), .barrier (.go 0), .barrier (.go 0), .barrier (.go 0), .epochBegin] : List EpochAct).foldlM
      (exec [0, 1]) (init 2) = some s₁ := rfl
  have hpost : (([.wakeup 0 (some 0), .barrier (.go 0), .restore 1] : List EpochAct).foldlM (exec [0, 1]) s₂).map
      (fun s => (s.isRollback, s.replayed, s.restored 0, s.restored 1, s.start.waitingThreads)) =
      some (true, false, true, true, 1) := by decide +kernel
  obtain ⟨s, hs, heq⟩ := Option.map_eq_some_iff.mp hpost
  simp only [Prod.mk.injEq] at heq
  obtain ⟨hr, hrep, h0, h1, hw₀⟩ := heq
  have h₁ : Reachable ((epochs 2 [0, 1]).restrict rollsBackAsBegun) s₁ := by
    refine .of_foldlM (f := exec [0, 1]) (fun s a s' ha hs => ⟨?_, hs⟩) (.init rfl) hpre
    cases a with
    | rollback => simp at ha
    | barrier | epochBegin | wakeup | restore => trivial
  have h₂ : Reachable ((epochs 2 [0, 1]).restrict rollsBackAsBegun) s₂ := .step .rollback h₁ ⟨⟨rfl, rfl, rfl⟩, rfl⟩
  have hreach : Reachable ((epochs 2 [0, 1]).restrict rollsBackAsBegun) s := by
    refine .of_foldlM (f := exec [0, 1]) (fun s a s' ha hs => ⟨?_, hs⟩) h₂ hs
    cases a with
    | rollback => simp at ha
    | barrier | epochBegin | wakeup | restore => trivial
  exact ⟨s, hreach, hr, hrep, by simp [h0, h1], hw₀, rollback_restores hreach⟩

/-- Thread 0 waits in the barrier at the end of the epoch only, and it is counted twice in the replay. -/
theorem rollback_keeps_arrival : ¬ ∀ s, Reachable (epochs 2 [0, 1]) s → s.Restores [0, 1] := by
  intro h
  have hrun : (([.barrier (.wait 0), .barrier (.go 0), .barrier (.go 0), .barrier (.go 0), .rollback, .wakeup 0 (some 0),
      .barrier (.go 0), .restore 1] : List EpochAct).foldlM (exec [0, 1]) (init 2)).map
      (fun s => (s.isRollback, s.replayed, s.restored 0, s.restored 1, s.barrier.waitingThreads, s.start.waitingThreads)) =
      some (true, false, true, true, 1, 0) := by decide +kernel
  obtain ⟨s, hs, heq⟩ := Option.map_eq_some_iff.mp hrun
  simp only [Prod.mk.injEq] at heq
  obtain ⟨hr, hrep, h0, h1, hw, hw₀⟩ := heq
  have hreach : Reachable (epochs 2 [0, 1]) s := .of_foldlM (f := exec [0, 1]) (fun _ _ _ _ h => h) (.init rfl) hs
  have hwait := (h s hreach hr hrep (by simp [h0, h1])).1
  rw [hw, hw₀] at hwait
  cases hwait

end Epochs

end Barrier

end DoubleTake
