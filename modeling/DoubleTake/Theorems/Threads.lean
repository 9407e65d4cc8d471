import DoubleTake.Threads

/-! The committer and the threads it waits for: in which runs no thread that the committer waits for is blocked on a
    lock that the committer holds. -/

namespace DoubleTake

open Transition

def CondWait.barrierHeld : CondWait → Option Nat
  | .cond _ => none
  | .barrier b => some b

theorem CondWait.mutex_eq_barrier {w : CondWait} {b : Nat} : w.mutex = .barrier b ↔ w.barrierHeld = some b := by
  cases w <;> simp [CondWait.mutex, CondWait.barrierHeld]

/-- The barrier whose mutex a thread holds there. -/
def Pc.barrierHeld : Pc → Option Nat
  | .markLock w | .markUnlock w | .markSafe w | .condWait w => w.barrierHeld
  | .unmarkLock w | .unmarkUnlock w | .unmarkUnsafe w => w.barrierHeld
  | .barrierArrive b | .barrierLoop b | .barrierLeave b | .barrierUnlock b => some b
  | _ => none

/-- A thread between its two changes of the flag in a wait on a condition variable. -/
def Pc.marked : Pc → Bool
  | .condWait _ | .condSleep _ | .condRelock _ | .unmarkLock _ | .unmarkUnlock _ | .unmarkUnsafe _ => true
  | _ => false

def Act.actor : Act → Nat
  | .mutexLock t _ | .mutexTrylock t _ | .mutexUnlock t _ | .condWait t _ | .barrierWait t _ => t
  | .stopAllThreads t | .go t | .wake t | .signal t => t

namespace Threads

variable {alive : List Nat} {c t u : Nat} {s s' : Threads} {a : Act}

/-- The next operation of the thread is on a lock that the committer holds. -/
def Blocked (s : Threads) (c t : Nat) : Prop :=
  match s.pc t with
  | .mutexLock m => s.owner (.app m) = some c
  | .condRelock w => s.owner w.mutex = some c
  | .barrierLock b | .arriveRelock b => s.owner (.barrier b) = some c
  | .markLock _ | .unmarkLock _ => s.threadMutex t = some c
  | _ => False

/-- What the operations of a thread leave alone: the other threads, and the locks that others hold. -/
structure Effect (t : Nat) (s s' : Threads) : Prop where
  pc : ∀ u, u ≠ t → s'.pc u = s.pc u
  isSafe : ∀ u, u ≠ t → s'.isSafe u = s.isSafe u
  owner : ∀ m o, s'.owner m = some o → o = t ∨ s.owner m = some o

theorem Effect.refl (t : Nat) (s : Threads) : Effect t s s := ⟨fun _ _ => rfl, fun _ _ => rfl, fun _ _ h => .inr h⟩

section
variable {p : Pc} {m : RealMutex}

theorem Effect.setPc (h : Effect t s s') (p : Pc) : Effect t s (s'.setPc t p) :=
  ⟨fun u hu => (Function.update_of_ne hu _ _).trans (h.pc u hu), h.isSafe, h.owner⟩

theorem Effect.setSafe (h : Effect t s s') (b : Bool) : Effect t s (s'.setSafe t b) :=
  ⟨h.pc, fun u hu => (Function.update_of_ne hu _ _).trans (h.isSafe u hu), h.owner⟩

theorem Effect.setOwner (h : Effect t s s') (m : RealMutex) {o : Option Nat} (ho : o = none ∨ o = some t) :
    Effect t s (s'.setOwner m o) := by
  refine ⟨h.pc, h.isSafe, fun m' o' hm' => ?_⟩
  by_cases hm : m' = m
  · subst hm
    have heq : o = some o' := by simpa [Threads.setOwner] using hm'
    rcases ho with rfl | rfl
    · cases heq
    · exact .inl (Option.some.inj heq).symm
  · refine h.owner m' o' ?_
    simpa [Threads.setOwner, hm] using hm'

theorem lockReal_eq (h : s.lockReal t m p = some s') : s' = (s.setOwner m (some t)).setPc t p := by
  rw [lockReal] at h
  split at h
  · exact (Option.some.inj h).symm
  · cases h

theorem lockThread_eq (h : s.lockThread t u p = some s') : s' = (s.setThreadMutex u (some t)).setPc t p := by
  rw [lockThread] at h
  split at h
  · exact (Option.some.inj h).symm
  · cases h

end

/-- What an operation of a thread may do: where the thread is and where it goes on, what it sets its flag to, and the real mutex
    that it takes or gives up. -/
inductive Moves (s : Threads) (t : Nat) : Pc → Pc → Option Bool → Option (RealMutex × Option Nat) → Prop where
  | mutexLock (m : Nat) : Moves s t (.mutexLock m) .program none (some (.app m, some t))
  | mutexTrylock (m : Nat) : Moves s t (.mutexTrylock m) .program none (some (.app m, some t))
  | mutexBusy (m : Nat) : Moves s t (.mutexTrylock m) .program none none
  | setThreadSafe : Moves s t .setThreadSafe .program (some true) none
  | markLock (w : CondWait) : Moves s t (.markLock w) (.markUnlock w) none none
  | markUnlock (w : CondWait) : Moves s t (.markUnlock w) (.markSafe w) none none
  | markSafe (w : CondWait) : Moves s t (.markSafe w) (.condWait w) (some true) none
  | condWait (w : CondWait) : Moves s t (.condWait w) (.condSleep w) none (some (w.mutex, none))
  | condRelock (w : CondWait) : Moves s t (.condRelock w) (.unmarkLock w) none (some (w.mutex, some t))
  | unmarkLock (w : CondWait) : Moves s t (.unmarkLock w) (.unmarkUnlock w) none none
  | unmarkUnlock (w : CondWait) : Moves s t (.unmarkUnlock w) (.unmarkUnsafe w) none none
  | unmarkCond (m : Nat) : Moves s t (.unmarkUnsafe (.cond m)) .program (some false) none
  | unmarkBarrier (b : Nat) : Moves s t (.unmarkUnsafe (.barrier b)) (.barrierLoop b) (some false) none
  | barrierLock (b : Nat) : Moves s t (.barrierLock b) (.barrierArrive b) none (some (.barrier b, some t))
  | arriveLast (b : Nat) : Moves s t (.barrierArrive b) (.barrierLeave b) none none
  | arrive (b : Nat) : Moves s t (.barrierArrive b) (.barrierLoop b) none none
  | arriveWait (b : Nat) : Moves s t (.barrierArrive b) (.arriveSleep b) none (some (.barrier b, none))
  | arriveRelock (b : Nat) : Moves s t (.arriveRelock b) (.barrierArrive b) none (some (.barrier b, some t))
  | barrierLoop (b : Nat) : (s.barrier b).isArrivalPhase = true → Moves s t (.barrierLoop b) (.markLock (.barrier b)) none none
  | barrierDone (b : Nat) : Moves s t (.barrierLoop b) (.barrierLeave b) none none
  | barrierLeave (b : Nat) : Moves s t (.barrierLeave b) (.barrierUnlock b) none none
  | barrierUnlock (b : Nat) : Moves s t (.barrierUnlock b) .setThreadSafe none (some (.barrier b, none))
  | stopDone : Moves s t (.stopNext []) .stopWait none none
  | stopSelf (us : List Nat) : Moves s t (.stopNext (t :: us)) (.stopNext us) none none
  | stopNext (u : Nat) (us : List Nat) : u ≠ t → Moves s t (.stopNext (u :: us)) (.stopSpin u us) none none
  | stopSafe (u : Nat) (us : List Nat) : Moves s t (.stopSpin u us) (.stopNext us) none none
  | stopSpin (u : Nat) (us : List Nat) : Moves s t (.stopSpin u us) (.stopSpin u us) none none

/-- It does nothing else to places, flags and real mutexes. -/
structure Moved (t : Nat) (s s' : Threads) (p q : Pc) (b : Option Bool) (o : Option (RealMutex × Option Nat)) : Prop where
  place : s.pc t = p
  moves : Moves s t p q b o
  pc : s'.pc = Function.update s.pc t q
  isSafe : s'.isSafe = b.elim s.isSafe (Function.update s.isSafe t)
  owner : s'.owner = o.elim s.owner fun x => Function.update s.owner x.1 x.2

theorem kill_moved (s : Threads) (u : Nat) :
    (s.kill u).pc = s.pc ∧ (s.kill u).isSafe = s.isSafe ∧ (s.kill u).owner = s.owner := by
  rw [kill]
  split <;> exact ⟨rfl, rfl, rfl⟩

theorem go_moved (h : s.go t = some s') : ∃ p q b o, Moved t s s' p q b o := by
  rw [go] at h
  split at h
  · cases h
  next m hpc =>
    cases lockReal_eq h
    exact ⟨_, _, _, _, hpc, .mutexLock m, rfl, rfl, rfl⟩
  next m hpc =>
    split at h
    · cases h
      exact ⟨_, _, _, _, hpc, .mutexTrylock m, rfl, rfl, rfl⟩
    · cases h
      exact ⟨_, _, _, _, hpc, .mutexBusy m, rfl, rfl, rfl⟩
  next hpc =>
    cases h
    exact ⟨_, _, _, _, hpc, .setThreadSafe, rfl, rfl, rfl⟩
  next w hpc =>
    split at h
    · cases lockThread_eq h
      exact ⟨_, _, _, _, hpc, .markLock w, rfl, rfl, rfl⟩
    · cases h
  next w hpc =>
    cases h
    exact ⟨_, _, _, _, hpc, .markUnlock w, rfl, rfl, rfl⟩
  next w hpc =>
    cases h
    exact ⟨_, _, _, _, hpc, .markSafe w, rfl, rfl, rfl⟩
  next w hpc =>
    cases h
    exact ⟨_, _, _, _, hpc, .condWait w, rfl, rfl, rfl⟩
  · cases h
  next w hpc =>
    cases lockReal_eq h
    exact ⟨_, _, _, _, hpc, .condRelock w, rfl, rfl, rfl⟩
  next w hpc =>
    cases lockThread_eq h
    exact ⟨_, _, _, _, hpc, .unmarkLock w, rfl, rfl, rfl⟩
  next w hpc =>
    cases h
    exact ⟨_, _, _, _, hpc, .unmarkUnlock w, rfl, rfl, rfl⟩
  next w hpc =>
    cases h
    cases w with
    | cond m => exact ⟨_, _, _, _, hpc, .unmarkCond m, rfl, rfl, rfl⟩
    | barrier b => exact ⟨_, _, _, _, hpc, .unmarkBarrier b, rfl, rfl, rfl⟩
  next b hpc =>
    cases lockReal_eq h
    exact ⟨_, _, _, _, hpc, .barrierLock b, rfl, rfl, rfl⟩
  next b hpc =>
    split at h
    · cases h
      rw [arrive]
      dsimp only
      split
      · exact ⟨_, _, _, _, hpc, .arriveLast b, rfl, rfl, rfl⟩
      · exact ⟨_, _, _, _, hpc, .arrive b, rfl, rfl, rfl⟩
    · cases h
      exact ⟨_, _, _, _, hpc, .arriveWait b, rfl, rfl, rfl⟩
  · cases h
  next b hpc =>
    cases lockReal_eq h
    exact ⟨_, _, _, _, hpc, .arriveRelock b, rfl, rfl, rfl⟩
  next b hpc =>
    split at h
    next harr =>
      cases h
      exact ⟨_, _, _, _, hpc, .barrierLoop b harr, rfl, rfl, rfl⟩
    · cases h
      exact ⟨_, _, _, _, hpc, .barrierDone b, rfl, rfl, rfl⟩
  next b hpc =>
    cases h
    exact ⟨_, _, _, _, hpc, .barrierLeave b, rfl, rfl, rfl⟩
  next b hpc =>
    cases h
    exact ⟨_, _, _, _, hpc, .barrierUnlock b, rfl, rfl, rfl⟩
  next hpc =>
    cases h
    exact ⟨_, _, _, _, hpc, .stopDone, rfl, rfl, rfl⟩
  next u us hpc =>
    split at h
    next heq =>
      cases h
      subst heq
      exact ⟨_, _, _, _, hpc, .stopSelf us, rfl, rfl, rfl⟩
    next hne =>
      cases lockThread_eq h
      exact ⟨_, _, _, _, hpc, .stopNext u us hne, rfl, rfl, rfl⟩
  next u us hpc =>
    split at h
    · cases h
      obtain ⟨hk₁, hk₂, hk₃⟩ := kill_moved s u
      exact ⟨_, _, _, _, hpc, .stopSafe u us, congrArg (Function.update · t _) hk₁, hk₂, hk₃⟩
    · cases h
      exact ⟨_, _, _, _, hpc, .stopSpin u us, (hpc ▸ Function.update_eq_self t s.pc).symm, rfl, rfl⟩
  · cases h

/-! What follows from the moves. -/

section
variable {p q : Pc} {b : Option Bool} {o : Option (RealMutex × Option Nat)}

/-- A thread takes mutexes for itself only. -/
theorem Moves.owner {x : RealMutex × Option Nat} (h : Moves s t p q b o) (hx : o = some x) : x.2 = none ∨ x.2 = some t := by
  cases h <;> cases hx <;> simp

/-- It comes between its two changes of the flag by the first of them, and does not leave by another one. -/
theorem Moves.marked (h : Moves s t p q b o) (hq : q.marked = true) : b = some true ∨ b = none ∧ p.marked = true := by
  cases h <;> simp_all [Pc.marked]

/-- A barrier mutex that it has afterwards it has locked now, or it has had it and has not given it up. -/
theorem Moves.barrierHeld (h : Moves s t p q b o) {x : Nat}
    (hx : o = some (.barrier x, some t) ∨ p.barrierHeld = some x ∧ o ≠ some (.barrier x, none)) : q.barrierHeld = some x := by
  have hm := @CondWait.mutex_eq_barrier
  cases h <;> simp_all [Pc.barrierHeld, CondWait.barrierHeld]

end

theorem go_effect (h : s.go t = some s') : Effect t s s' := by
  obtain ⟨p, q, b, o, hm⟩ := go_moved h
  refine ⟨fun u hu => ?_, fun u hu => ?_, fun m' x hx => ?_⟩
  · rw [hm.pc, Function.update_of_ne hu]
  · rw [hm.isSafe]
    cases b with
    | none => rfl
    | some b => exact Function.update_of_ne hu ..
  · rw [hm.owner] at hx
    cases o with
    | none => exact .inr hx
    | some y =>
      have hy := hm.moves.owner rfl
      by_cases heq : m' = y.1
      · rw [heq, Option.elim_some, Function.update_self] at hx
        rw [hx] at hy
        exact .inl (by simpa using hy)
      · rw [Option.elim_some, Function.update_of_ne heq] at hx
        exact .inr hx

theorem exec_effect (h : s.exec alive c a = some s') : Effect a.actor s s' := by
  have hrefl := Effect.refl a.actor s
  cases a with
  | mutexLock t m | mutexTrylock t m | barrierWait t b =>
    rw [exec] at h
    split at h
    · cases h
      exact (hrefl.setSafe _).setPc _
    · cases h
  | mutexUnlock t m =>
    rw [exec] at h
    split at h
    · cases h
      exact (hrefl.setOwner _ (.inl rfl)).setPc _
    · cases h
  | condWait t m | stopAllThreads t =>
    rw [exec] at h
    split at h
    · cases h
      exact hrefl.setPc _
    · cases h
  | go t =>
    rw [exec] at h
    split at h
    · cases h
    · exact go_effect h
  | wake t =>
    rw [exec] at h
    split at h
    · cases h
    · split at h
      · cases h
        exact hrefl.setPc _
      · cases h
        exact hrefl.setPc _
      · cases h
  | signal t =>
    rw [exec] at h
    split at h
    · cases h
      exact ⟨fun _ _ => rfl, fun _ _ => rfl, fun _ _ h => .inr h⟩
    · cases h

section
variable (s : Threads) (t u : Nat) (p : Pc) (b : Bool) (m m' : RealMutex) (o : Option Nat)

@[simp] theorem setPc_pc : (s.setPc t p).pc u = if u = t then p else s.pc u := by simp [setPc, Function.update_apply]

@[simp] theorem setPc_isSafe : (s.setPc t p).isSafe = s.isSafe := rfl

@[simp] theorem setPc_owner : (s.setPc t p).owner = s.owner := rfl

@[simp] theorem setSafe_pc : (s.setSafe t b).pc = s.pc := rfl

@[simp] theorem setSafe_isSafe : (s.setSafe t b).isSafe u = if u = t then b else s.isSafe u := by
  simp [setSafe, Function.update_apply]

@[simp] theorem setSafe_owner : (s.setSafe t b).owner = s.owner := rfl

@[simp] theorem setOwner_pc : (s.setOwner m o).pc = s.pc := rfl

@[simp] theorem setOwner_isSafe : (s.setOwner m o).isSafe = s.isSafe := rfl

@[simp] theorem setOwner_owner : (s.setOwner m o).owner m' = if m' = m then o else s.owner m' := by
  simp [setOwner, Function.update_apply]

end

/-- What the flag and the barrier mutexes say of the place where a thread is. -/
structure Held (s : Threads) (t : Nat) : Prop where
  safe : (s.pc t).marked = true → s.isSafe t = true
  barrier : ∀ b, s.owner (.barrier b) = some t → (s.pc t).barrierHeld = some b

theorem go_held (h : s.go t = some s') (hi : s.Held t) : s'.Held t := by
  obtain ⟨p, q, b, o, hm⟩ := go_moved h
  refine ⟨fun hmark => ?_, fun x hx => ?_⟩
  · rw [hm.pc, Function.update_self] at hmark
    rw [hm.isSafe]
    rcases hm.moves.marked hmark with rfl | ⟨rfl, hp⟩
    · exact Function.update_self ..
    · exact hi.safe (hm.place ▸ hp)
  · rw [hm.pc, Function.update_self]
    refine hm.moves.barrierHeld ?_
    rw [hm.owner] at hx
    cases o with
    | none => exact .inr ⟨hm.place ▸ hi.barrier x hx, by simp⟩
    | some y =>
      rw [Option.elim_some] at hx
      by_cases heq : RealMutex.barrier x = y.1
      · rw [heq, Function.update_self] at hx
        exact .inl (by rw [heq, ← hx])
      · rw [Function.update_of_ne heq] at hx
        exact .inr ⟨hm.place ▸ hi.barrier x hx, fun h => heq (by rw [Option.some.inj h])⟩

theorem go_pc_markLock {w : CondWait} (h : s.go t = some s') (hp : s'.pc t = .markLock w) :
    ∃ b, s.pc t = .barrierLoop b ∧ (s.barrier b).isArrivalPhase = true ∧ s'.isSafe t = s.isSafe t := by
  obtain ⟨p, q, b, o, hm⟩ := go_moved h
  rw [hm.pc, Function.update_self] at hp
  subst hp
  obtain ⟨hplace, hmoves, -, hsafe, -⟩ := hm
  cases hmoves with
  | barrierLoop x harr => exact ⟨x, hplace, harr, by rw [hsafe]; rfl⟩

theorem go_pc_mutexLock {m : Nat} (h : s.go t = some s') : s'.pc t ≠ .mutexLock m := by
  intro hp
  obtain ⟨p, q, b, o, hm⟩ := go_moved h
  rw [hm.pc, Function.update_self] at hp
  subst hp
  cases hm.moves

theorem go_pc_stopSpin {us : List Nat} (h : s.go t = some s') (hp : s'.pc t = .stopSpin u us) :
    (s.pc t = .stopSpin u us ∨ s.pc t = .stopNext (u :: us) ∧ u ≠ t) ∧ s'.isSafe = s.isSafe ∧ s'.owner = s.owner := by
  obtain ⟨p, q, b, o, hm⟩ := go_moved h
  rw [hm.pc, Function.update_self] at hp
  subst hp
  obtain ⟨hplace, hmoves, -, hsafe, hown⟩ := hm
  cases hmoves with
  | stopNext u us hne => exact ⟨.inr ⟨hplace, hne⟩, hsafe, hown⟩
  | stopSpin u us => exact ⟨.inl hplace, hsafe, hown⟩

theorem exec_held (h : s.exec alive c a = some s') (hi : s.Held a.actor) : s'.Held a.actor := by
  obtain ⟨hs, hb⟩ := hi
  cases a with
  | mutexLock t m | mutexTrylock t m | barrierWait t b | mutexUnlock t m | condWait t m =>
    rw [exec] at h
    split at h
    · cases h
      constructor <;> simp_all [Pc.marked, Pc.barrierHeld, Act.actor]
    · cases h
  | stopAllThreads t =>
    rw [exec] at h
    split at h
    · rename_i hg
      obtain ⟨-, hpc, -⟩ := hg
      cases h
      constructor <;> simp_all [Pc.marked, Pc.barrierHeld, Act.actor]
    · cases h
  | go t =>
    rw [exec] at h
    split at h
    · cases h
    · exact go_held h ⟨hs, hb⟩
  | wake t =>
    rw [exec] at h
    split at h
    · cases h
    · split at h
      all_goals
        cases h
        try (constructor <;> simp_all [Pc.marked, Pc.barrierHeld, Act.actor])
  | signal t =>
    rw [exec] at h
    split at h
    · cases h
      exact ⟨hs, hb⟩
    · cases h

theorem exec_all_held (h : s.exec alive c a = some s') (hi : ∀ t, s.Held t) (t : Nat) : s'.Held t := by
  have heff := exec_effect h
  by_cases ht : t = a.actor
  · subst ht
    exact exec_held h (hi _)
  · constructor
    · rw [heff.pc t ht, heff.isSafe t ht]
      exact (hi t).safe
    · intro b hb
      rw [heff.pc t ht]
      rcases heff.owner _ _ hb with hact | hown
      · exact absurd hact ht
      · exact (hi t).barrier b hown

/-- The thread neither waits for a mutex that `c` holds nor is about to lock its own thread mutex while it is unsafe. -/
structure Clear (s : Threads) (c t : Nat) : Prop where
  markLock : ∀ w, s.pc t ≠ .markLock w
  mutexLock : ∀ m, s.pc t = .mutexLock m → s.owner (.app m) ≠ some c

/-- What keeps the committer from waiting for a thread that waits for it. -/
def StopGuard (c : Nat) (s : Threads) : Act → Prop
  | .mutexLock t m => ∀ us, s.pc c = .stopSpin t us → s.owner (.app m) ≠ some c
  | .condWait t _ => ∀ us, s.pc c = .stopSpin t us → s.isSafe t = true
  | .go t =>
    (∀ b us, s.pc t = .barrierLoop b → (s.barrier b).isArrivalPhase = true → s.pc c = .stopSpin t us → s.isSafe t = true) ∧
    (∀ u us, t = c → s.pc c = .stopNext (u :: us) → u ≠ c → s.isSafe u = false → s.Clear c u)
  | _ => True

structure StopInv (c : Nat) (s : Threads) : Prop where
  held : ∀ t, s.Held t
  clear : ∀ t us, s.pc c = .stopSpin t us → s.isSafe t = false → s.Clear c t

/-- A step of another thread leaves the thread that the committer waits for as it is. -/
theorem Clear.of_effect {v : Nat} (heff : Effect v s s') (hv : v ≠ c) (ht : t ≠ v) (h : s.Clear c t) : s'.Clear c t := by
  constructor
  · rw [heff.pc t ht]
    exact h.markLock
  · intro m hm hown
    rw [heff.pc t ht] at hm
    rcases heff.owner _ _ hown with hact | hown
    · exact hv hact.symm
    · exact h.mutexLock m hm hown

/-- A step of the thread that the committer waits for. -/
theorem clear_of_actor {us : List Nat} (hg : StopGuard c s a) (h : s.exec alive c a = some s') (ha : a.actor ≠ c)
    (hc : s.pc c = .stopSpin a.actor us) (hsafe : s'.isSafe a.actor = false)
    (hi : s.isSafe a.actor = false → s.Clear c a.actor) : s'.Clear c a.actor := by
  cases a with
  | mutexLock t m =>
    rw [exec] at h
    split at h
    · cases h
      constructor <;> simp_all [Act.actor, StopGuard]
    · cases h
  | mutexTrylock t m | barrierWait t b | mutexUnlock t m | condWait t m | stopAllThreads t =>
    rw [exec] at h
    split at h
    · cases h
      constructor <;> simp_all [Act.actor, StopGuard]
    · cases h
  | go t =>
    rw [exec] at h
    split at h
    · cases h
    · constructor
      · intro w hw
        obtain ⟨b, hb, harr, hs⟩ := go_pc_markLock h hw
        have hunsafe := hg.1 b us hb harr hc
        simp_all [Act.actor]
      · intro m hm
        exact absurd hm (go_pc_mutexLock h)
  | wake t =>
    rw [exec] at h
    split at h
    · cases h
    · split at h
      all_goals
        cases h
        try (constructor <;> simp_all [Act.actor])
  | signal t =>
    rw [exec] at h
    split at h
    · cases h
      exact ⟨(hi hsafe).markLock, (hi hsafe).mutexLock⟩
    · cases h

/-- A step of the committer. -/
theorem clear_of_committer {us : List Nat} (hg : StopGuard c s a) (h : s.exec alive c a = some s') (ha : a.actor = c)
    (hc : s'.pc c = .stopSpin t us) (hsafe : s'.isSafe t = false)
    (hi : s.pc c = .stopSpin t us → s.isSafe t = false → s.Clear c t) : s'.Clear c t := by
  cases a with
  | mutexLock t m | mutexTrylock t m | barrierWait t b | mutexUnlock t m | condWait t m | stopAllThreads t =>
    rw [exec] at h
    split at h
    · cases h
      simp_all [Act.actor]
    · cases h
  | go v =>
    obtain rfl : v = c := ha
    rw [exec] at h
    split at h
    · cases h
    · obtain ⟨hwas, hsafe', hown⟩ := go_pc_stopSpin h hc
      rw [hsafe'] at hsafe
      have hcl : s.Clear v t ∧ s'.pc t = s.pc t := by
        rcases hwas with hspin | ⟨hnext, hne⟩
        · refine ⟨hi hspin hsafe, ?_⟩
          by_cases ht : t = v
          · rw [ht, hspin, ← ht, ← hc, ht]
          · exact (go_effect h).pc t ht
        · exact ⟨hg.2 t us rfl hnext hne hsafe, (go_effect h).pc t hne⟩
      constructor
      · rw [hcl.2]
        exact hcl.1.markLock
      · rw [hcl.2, hown]
        exact hcl.1.mutexLock
  | wake v =>
    rw [exec] at h
    split at h
    · cases h
    · split at h
      all_goals
        cases h
        try simp_all [Act.actor]
  | signal v =>
    rw [exec] at h
    split at h
    · cases h
      exact ⟨(hi hc hsafe).markLock, (hi hc hsafe).mutexLock⟩
    · cases h

theorem StopInv.step (hi : StopInv c s) (hg : StopGuard c s a) (h : s.exec alive c a = some s') : StopInv c s' := by
  refine ⟨exec_all_held h hi.held, fun t us hc hsafe => ?_⟩
  by_cases ha : a.actor = c
  · exact clear_of_committer hg h ha hc hsafe (hi.clear t us)
  · have heff := exec_effect h
    rw [heff.pc c (Ne.symm ha)] at hc
    by_cases ht : t = a.actor
    · subst ht
      exact clear_of_actor hg h ha hc hsafe (hi.clear _ us hc)
    · rw [heff.isSafe t ht] at hsafe
      exact (hi.clear t us hc hsafe).of_effect heff ha ht

theorem StopInv.not_blocked {us : List Nat} (hi : StopInv c s) (hc : s.pc c = .stopSpin t us)
    (hsafe : s.isSafe t = false) : ¬ s.Blocked c t := by
  have hcl := hi.clear t us hc hsafe
  -- The committer holds no barrier mutex while it stops the threads.
  have hbar : ∀ b, s.owner (.barrier b) ≠ some c := by
    intro b hb
    have := (hi.held c).barrier b hb
    simp [hc, Pc.barrierHeld] at this
  have hmark : (s.pc t).marked ≠ true := by
    intro hm
    simp [(hi.held t).safe hm] at hsafe
  rw [Blocked]
  split
  · rename_i m hpc
    exact hcl.mutexLock m hpc
  · rename_i w hpc
    simp [hpc, Pc.marked] at hmark
  · exact hbar _
  · exact hbar _
  · rename_i w hpc
    exact absurd hpc (hcl.markLock w)
  · rename_i w hpc
    simp [hpc, Pc.marked] at hmark
  · exact id

/-- In the runs that keep the guard, no thread that the committer waits for is blocked on a lock of the committer. -/
theorem stop_not_blocked {us : List Nat} (h : Reachable ((system alive c).restrict (StopGuard c)) s)
    (hc : s.pc c = .stopSpin t us) (hsafe : s.isSafe t = false) : ¬ s.Blocked c t := by
  refine StopInv.not_blocked ?_ hc hsafe
  refine Reachable.invariant (S := (system alive c).restrict (StopGuard c)) (P := StopInv c) ?_ ?_ h
  · intro s hs
    refine ⟨fun t => ⟨?_, ?_⟩, fun t us hc => ?_⟩
    · simp [hs.pc, Pc.marked]
    · simp [hs.owner]
    · simp [hs.pc] at hc
  · intro s a s' hi hs
    exact hi.step hs.1 hs.2

def start : Threads where
  pc _ := .program
  isSafe _ := true
  status _ := .running
  owner _ := none
  threadMutex _ := none
  barrier _ := ⟨0, true, 0⟩
  killed _ := false
  stopped _ := false

theorem start_initial : start.Initial := ⟨fun _ => rfl, fun _ => rfl, fun _ => rfl⟩

theorem reachable_exec (h : Reachable (system alive c) s) (a : Act) (he : s.exec alive c a = some s') :
    Reachable (system alive c) s' :=
  .step a h he

theorem reachable_guarded (h : Reachable ((system alive c).restrict (StopGuard c)) s) (a : Act) (hg : StopGuard c s a)
    (he : s.exec alive c a = some s') : Reachable ((system alive c).restrict (StopGuard c)) s' :=
  .step a h ⟨hg, he⟩

/-- The committer waits for a thread that holds a mutex and runs. -/
theorem stop_not_blocked_holding : ∃ s, Reachable ((system [0, 1] 0).restrict (StopGuard 0)) s ∧
    s.pc 0 = .stopSpin 1 [] ∧ s.isSafe 1 = false ∧ ¬ s.Blocked 0 1 := by
  have h₀ : Reachable ((system [0, 1] 0).restrict (StopGuard 0)) start := .init start_initial
  have h₁ := reachable_guarded h₀ (.mutexLock 1 7) (fun _ h => nomatch h) rfl
  have h₂ := reachable_guarded h₁ (.go 1) ⟨fun _ _ => nofun, fun _ _ => nofun⟩ rfl
  have h₃ := reachable_guarded h₂ (.stopAllThreads 0) trivial rfl
  have h₄ := reachable_guarded h₃ (.go 0) ⟨fun _ _ => nofun, ?_⟩ rfl
  have h₅ := reachable_guarded h₄ (.go 0) ⟨fun _ _ => nofun, ?_⟩ rfl
  · exact ⟨_, h₅, rfl, rfl, stop_not_blocked h₅ rfl rfl⟩
  · intro u us _ hpc _ _
    cases hpc
    exact ⟨fun _ => nofun, fun _ => nofun⟩
  · intro u us _ hpc hne
    cases hpc
    exact absurd rfl hne

/-- The committer holds the mutex 7, and the thread it waits for waits for this mutex. -/
theorem stop_blocked : ¬ ∀ (alive : List Nat) (c t : Nat) (us : List Nat) (s : Threads), Reachable (system alive c) s →
    s.pc c = .stopSpin t us → s.isSafe t = false → ¬ s.Blocked c t := by
  intro h
  have h₀ : Reachable (system [0, 1] 0) start := .init start_initial
  have h₁ := reachable_exec h₀ (.mutexLock 0 7) rfl
  have h₂ := reachable_exec h₁ (.go 0) rfl
  have h₃ := reachable_exec h₂ (.stopAllThreads 0) rfl
  have h₄ := reachable_exec h₃ (.mutexLock 1 7) rfl
  have h₅ := reachable_exec h₄ (.go 0) rfl
  have h₆ := reachable_exec h₅ (.go 0) rfl
  exact h _ _ _ _ _ h₆ rfl rfl rfl

end Threads

end DoubleTake
