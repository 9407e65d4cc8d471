import Mathlib.Data.Finset.Card
import Mathlib.Tactic.Ring
import DoubleTake.Barrier

/-! The rounds of a barrier. The threads that have arrived and not left are counted by `waitingThreads`; the arrival
    phase of a round ends with its last arrival and the next one begins with its last departure. This holds for the
    counts that fit in an `int`. -/

namespace DoubleTake

open Transition

namespace Barrier

/-- The thread has arrived in the round and has not left it. -/
def Place.inside : Place → Bool
  | .loop | .loopSleep | .loopRelock | .leave => true
  | _ => false

/-- Where a thread can be in a phase: it leaves in a departure phase only, and it sleeps only where the condition of
    its loop holds. -/
def Place.fits (isArrivalPhase : Bool) (p : Place) : Prop :=
  if isArrivalPhase then p ≠ .leave ∧ p ≠ .arrivalSleep else p ≠ .loopSleep

theorem Place.inside_wake (p : Place) : p.wake.inside = p.inside := by cases p <;> rfl

/-- The threads inside are counted by `waitingThreads`. -/
def Counts (s : State) : Prop := ∃ F : Finset Nat, (∀ t, t ∈ F ↔ (s.place t).inside = true) ∧ s.waitingThreads = F.card

namespace Counts

variable {t : Nat} {s s' : State} {p : Place}

/-- A thread goes on without arriving or leaving. -/
theorem setPlace (h : Counts s) (hin : p.inside = (s.place t).inside) : Counts (s.setPlace t p) := by
  obtain ⟨F, hF, hcard⟩ := h
  refine ⟨F, fun u => ?_, hcard⟩
  rw [hF]
  by_cases hu : u = t
  · subst hu
    simp [State.setPlace, hin]
  · simp [State.setPlace, hu]

theorem setMutex (h : Counts s) (o : Option Nat) : Counts (s.setMutex o) := h

theorem broadcast (h : Counts s) : Counts s.broadcast := by
  obtain ⟨F, hF, hcard⟩ := h
  refine ⟨F, fun u => ?_, hcard⟩
  rw [hF, State.broadcast, Place.inside_wake]

/-- The thread is counted when it is inside. -/
theorem enter (h : Counts s) (ht : (s.place t).inside = false) (hp : p.inside = true) :
    Counts ({ s with waitingThreads := s.waitingThreads + 1 }.setPlace t p) := by
  obtain ⟨F, hF, hcard⟩ := h
  have hnot : t ∉ F := by simp [hF, ht]
  refine ⟨insert t F, fun u => ?_, ?_⟩
  · rw [Finset.mem_insert, hF]
    by_cases hu : u = t <;> simp [State.setPlace, hu, hp]
  · rw [Finset.card_insert_of_notMem hnot]
    simp only [State.setPlace]
    omega

theorem exit (h : Counts s) (ht : (s.place t).inside = true) (hp : p.inside = false) :
    Counts ({ s with waitingThreads := s.waitingThreads - 1 }.setPlace t p) := by
  obtain ⟨F, hF, hcard⟩ := h
  have hmem : t ∈ F := (hF t).mpr ht
  have hcard' := Finset.card_erase_add_one hmem
  refine ⟨F.erase t, fun u => ?_, ?_⟩
  · rw [Finset.mem_erase, hF]
    by_cases hu : u = t <;> simp [State.setPlace, hu, hp]
  · simp only [State.setPlace]
    omega

theorem arrive (h : Counts s) (ht : (s.place t).inside = false) : Counts (s.arrive t) := by
  rw [State.arrive]
  dsimp only
  split
  · exact h.broadcast.enter (by rw [State.broadcast, Place.inside_wake, ht]) rfl
  · exact h.enter ht rfl

theorem depart (h : Counts s) (ht : (s.place t).inside = true) : Counts (s.depart t) := by
  rw [State.depart]
  dsimp only
  split
  · exact h.broadcast.exit (by rw [State.broadcast, Place.inside_wake, ht]) rfl
  · exact h.exit ht rfl

theorem lock (h : Counts s) (hin : p.inside = (s.place t).inside) (hs : s.lock t p = some s') : Counts s' := by
  rw [State.lock] at hs
  split at hs
  · cases hs
    exact (h.setMutex _).setPlace hin
  · cases hs

theorem go (h : Counts s) (hs : s.go t = some s') : Counts s' := by
  rw [State.go] at hs
  split at hs
  case h_1 | h_4 | h_7 => cases hs
  case h_2 ht | h_5 ht | h_8 ht => exact h.lock (by rw [ht]; rfl) hs
  case h_3 ht =>
    split at hs
    · cases hs
      exact h.arrive (by rw [ht]; rfl)
    · cases hs
      exact (h.setMutex none).setPlace (by simp [State.setMutex, ht, Place.inside])
  case h_6 ht =>
    split at hs
    · cases hs
      exact (h.setMutex none).setPlace (by simp [State.setMutex, ht, Place.inside])
    · cases hs
      exact h.setPlace (by rw [ht]; rfl)
  case h_9 ht =>
    cases hs
    exact h.depart (by rw [ht]; rfl)
  case h_10 ht =>
    cases hs
    exact (h.setMutex none).setPlace (by simp [State.setMutex, ht, Place.inside])

theorem exec {a : Act} (h : Counts s) (hs : s.exec a = some s') : Counts s' := by
  cases a with
  | wait t =>
    simp only [State.exec] at hs
    split at hs
    · rename_i ht
      cases hs
      exact h.setPlace (by rw [ht]; rfl)
    · cases hs
  | go t => exact h.go hs
  | spurious t =>
    simp only [State.exec] at hs
    split at hs
    · cases hs
      exact h.setPlace (Place.inside_wake _)
    · cases hs

theorem of_init (count : Nat) : Counts (init count) := ⟨∅, fun t => by simp [init, Place.inside], rfl⟩

end Counts

/-- What is right in a state of a barrier with count `n`: the counter, the rounds, and that no wakeup is lost. -/
structure Correct (n : Nat) (s : State) : Prop where
  counted : s.waitingThreads = s.arrivals - s.departures
  nonneg : 0 ≤ s.waitingThreads
  le : s.waitingThreads ≤ n
  round : s.departures ≤ n * (s.arrivals / n)
  arrival : s.isArrivalPhase = true → n ∣ s.departures
  departure : s.isArrivalPhase = false → n ∣ s.arrivals
  arrivalSleep : ∀ t, s.place t = .arrivalSleep → s.isArrivalPhase = false
  loopSleep : ∀ t, s.place t = .loopSleep → s.isArrivalPhase = true

/-- The invariant of the threads at the barrier. -/
structure Rounds (n : Nat) (s : State) : Prop where
  maxThreads : s.maxThreads = n
  inside : ∃ F : Finset Nat, (∀ t, t ∈ F ↔ (s.place t).inside = true) ∧ s.waitingThreads = F.card
  counted : s.waitingThreads = s.arrivals - s.departures
  fits : ∀ t, (s.place t).fits s.isArrivalPhase
  arrival : s.isArrivalPhase = true → n ∣ s.departures ∧ s.waitingThreads < n
  departure : s.isArrivalPhase = false → n ∣ s.arrivals ∧ 0 < s.waitingThreads ∧ s.waitingThreads ≤ n

namespace Rounds

variable {n t : Nat} {s s' : State} {p : Place}

theorem nonneg (h : Rounds n s) : 0 ≤ s.waitingThreads := by
  obtain ⟨F, -, hF⟩ := h.inside
  omega

theorem correct (h : Rounds n s) : Correct n s where
  counted := h.counted
  nonneg := h.nonneg
  le := by
    cases hp : s.isArrivalPhase with
    | true => exact (h.arrival hp).2.le
    | false => exact (h.departure hp).2.2
  round := by
    have hcount := h.counted
    have hnonneg := h.nonneg
    cases hp : s.isArrivalPhase with
    | true =>
      -- All departures are of full rounds, and the arrivals after them are too few for another one.
      obtain ⟨⟨k, hk⟩, -⟩ := h.arrival hp
      have hle : s.departures ≤ s.arrivals := by omega
      rw [hk] at hle ⊢
      have hn : n * k / n ≤ s.arrivals / n := Nat.div_le_div_right hle
      rcases Nat.eq_zero_or_pos n with rfl | hpos
      · simp
      · rw [Nat.mul_div_cancel_left k hpos] at hn
        exact Nat.mul_le_mul_left n hn
    | false =>
      rw [Nat.mul_div_cancel' (h.departure hp).1]
      omega
  arrival := fun hp => (h.arrival hp).1
  departure := fun hp => (h.departure hp).1
  arrivalSleep := by
    intro t ht
    by_contra hp
    have hfits := h.fits t
    simp [Place.fits, ht, hp] at hfits
  loopSleep := by
    intro t ht
    by_contra hp
    have hfits := h.fits t
    simp [Place.fits, ht, hp] at hfits

/-- A thread goes on without arriving or leaving. -/
theorem setPlace (h : Rounds n s) (hin : p.inside = (s.place t).inside) (hfits : p.fits s.isArrivalPhase) :
    Rounds n (s.setPlace t p) where
  maxThreads := h.maxThreads
  inside := Counts.setPlace h.inside hin
  counted := h.counted
  fits := by
    intro u
    by_cases hu : u = t
    · subst hu
      simpa [State.setPlace] using hfits
    · simpa [State.setPlace, hu] using h.fits u
  arrival := h.arrival
  departure := h.departure

theorem setMutex (h : Rounds n s) (o : Option Nat) : Rounds n (s.setMutex o) :=
  ⟨h.maxThreads, h.inside, h.counted, h.fits, h.arrival, h.departure⟩

theorem lock (h : Rounds n s) (hin : p.inside = (s.place t).inside) (hfits : p.fits s.isArrivalPhase)
    (hs : s.lock t p = some s') : Rounds n s' := by
  rw [State.lock] at hs
  split at hs
  · cases hs
    exact (h.setMutex _).setPlace hin hfits
  · cases hs

theorem arrive (h : Rounds n s) (ht : s.place t = .arrival) (hp : s.isArrivalPhase = true) :
    Rounds n (s.arrive t) := by
  have hinside : Counts (s.arrive t) := Counts.arrive h.inside (by rw [ht]; rfl)
  obtain ⟨hdvd, hlt⟩ := h.arrival hp
  have hnonneg := h.nonneg
  have hmax := h.maxThreads
  have hcount := h.counted
  rw [State.arrive] at hinside ⊢
  dsimp only at hinside ⊢
  split at hinside
  · -- The last arrival of the round.
    rename_i hlast
    rw [if_pos hlast]
    refine ⟨hmax, hinside, ?_, fun u => ?_, nofun, fun _ => ?_⟩
    · simp only [State.setPlace, State.broadcast]
      push_cast
      omega
    · by_cases hu : u = t
      · simp [State.setPlace, State.broadcast, hu, Place.fits]
      · have hne : (s.place u).wake ≠ .loopSleep := by cases s.place u <;> nofun
        simpa [State.setPlace, State.broadcast, hu, Place.fits] using hne
    · simp only [State.setPlace, State.broadcast]
      have harr : s.arrivals + 1 = s.departures + n := by omega
      rw [harr]
      exact ⟨(Nat.dvd_add_right hdvd).mpr (dvd_refl n), by omega, by omega⟩
  · rename_i hlast
    rw [if_neg hlast]
    refine ⟨hmax, hinside, ?_, fun u => ?_, fun _ => ⟨hdvd, ?_⟩, ?_⟩
    · simp only [State.setPlace]
      push_cast
      omega
    · by_cases hu : u = t
      · simp [State.setPlace, hu, Place.fits, hp]
      · simpa [State.setPlace, hu] using h.fits u
    · simp only [State.setPlace]
      omega
    · simp [State.setPlace, hp]

theorem depart (h : Rounds n s) (ht : s.place t = .leave) : Rounds n (s.depart t) := by
  have hinside : Counts (s.depart t) := Counts.depart h.inside (by rw [ht]; rfl)
  have hmax := h.maxThreads
  have hcount := h.counted
  have hp : s.isArrivalPhase = false := by
    by_contra hp
    have hfits := h.fits t
    simp [Place.fits, ht, hp] at hfits
  obtain ⟨hdvd, hpos, hle⟩ := h.departure hp
  rw [State.depart] at hinside ⊢
  dsimp only at hinside ⊢
  split at hinside
  · -- The last departure of the round: nobody is left inside.
    rename_i hzero
    rw [if_pos hzero]
    have hempty : ∀ u, u ≠ t → (s.place u).inside = false := by
      intro u hu
      obtain ⟨F, hF, hcard⟩ := hinside
      have hnone : F = ∅ := Finset.card_eq_zero.mp (by simp only [State.setPlace, State.broadcast] at hcard; omega)
      have hnot := hF u
      rw [hnone] at hnot
      simpa [State.setPlace, State.broadcast, hu, Place.inside_wake] using hnot
    refine ⟨hmax, hinside, ?_, fun u => ?_, fun _ => ?_, nofun⟩
    · simp only [State.setPlace, State.broadcast]
      push_cast
      omega
    · by_cases hu : u = t
      · simp [State.setPlace, State.broadcast, hu, Place.fits]
      · have hout := hempty u hu
        have hne : (s.place u).wake ≠ .leave ∧ (s.place u).wake ≠ .arrivalSleep := by
          cases hpl : s.place u <;> simp_all [Place.inside, Place.wake]
        simpa [State.setPlace, State.broadcast, hu, Place.fits] using hne
    · simp only [State.setPlace, State.broadcast]
      have hdep : s.departures + 1 = s.arrivals := by omega
      rw [hdep]
      exact ⟨hdvd, by omega⟩
  · rename_i hzero
    rw [if_neg hzero]
    refine ⟨hmax, hinside, ?_, fun u => ?_, ?_, fun _ => ⟨hdvd, ?_, ?_⟩⟩
    · simp only [State.setPlace]
      push_cast
      omega
    · by_cases hu : u = t
      · simp [State.setPlace, hu, Place.fits, hp]
      · simpa [State.setPlace, hu] using h.fits u
    · simp [State.setPlace, hp]
    · simp only [State.setPlace]
      omega
    · simp only [State.setPlace]
      omega

theorem go (h : Rounds n s) (hs : s.go t = some s') : Rounds n s' := by
  rw [State.go] at hs
  split at hs
  case h_1 | h_4 | h_7 => cases hs
  case h_2 ht => exact h.lock (by rw [ht]; rfl) (by cases s.isArrivalPhase <;> simp [Place.fits]) hs
  case h_3 ht =>
    split at hs
    · rename_i hp
      cases hs
      exact h.arrive ht hp
    · rename_i hp
      cases hs
      exact (h.setMutex none).setPlace (by simp [State.setMutex, ht, Place.inside]) (by simp [State.setMutex, Place.fits, hp])
  case h_5 ht => exact h.lock (by rw [ht]; rfl) (by cases s.isArrivalPhase <;> simp [Place.fits]) hs
  case h_6 ht =>
    split at hs
    · rename_i hp
      cases hs
      exact (h.setMutex none).setPlace (by simp [State.setMutex, ht, Place.inside]) (by simp [State.setMutex, Place.fits, hp])
    · rename_i hp
      cases hs
      exact h.setPlace (by rw [ht]; rfl) (by simp [Place.fits, hp])
  case h_8 ht => exact h.lock (by rw [ht]; rfl) (by cases s.isArrivalPhase <;> simp [Place.fits]) hs
  case h_9 ht =>
    cases hs
    exact h.depart ht
  case h_10 ht =>
    cases hs
    exact (h.setMutex none).setPlace (by simp [State.setMutex, ht, Place.inside])
      (by cases hp : s.isArrivalPhase <;> simp [State.setMutex, Place.fits, hp])

theorem exec {a : Act} (h : Rounds n s) (hs : s.exec a = some s') : Rounds n s' := by
  cases a with
  | wait t =>
    simp only [State.exec] at hs
    split at hs
    · rename_i ht
      cases hs
      exact h.setPlace (by rw [ht]; rfl) (by cases s.isArrivalPhase <;> simp [Place.fits])
    · cases hs
  | go t => exact h.go hs
  | spurious t =>
    simp only [State.exec] at hs
    split at hs
    · rename_i ht
      cases hs
      refine h.setPlace (Place.inside_wake _) ?_
      rcases ht with ht | ht <;> rw [ht] <;> cases s.isArrivalPhase <;> simp [Place.fits, Place.wake]
    · cases hs

/-- A count that fits in an `int` is the number of threads of each round. -/
theorem of_init (hpos : 1 ≤ n) (hn : n < 2 ^ 31) : Rounds n (init n) where
  maxThreads := if_pos hn
  inside := Counts.of_init n
  counted := rfl
  fits := fun t => by simp [init, Place.fits]
  arrival := fun _ => ⟨Nat.dvd_zero n, Int.ofNat_lt.mpr hpos⟩
  departure := nofun

end Rounds

theorem reachable_rounds {n : Nat} (hpos : 1 ≤ n) (hn : n < 2 ^ 31) {s : State} (h : Reachable (system n) s) :
    Rounds n s :=
  Reachable.invariant (S := system n) (P := Rounds n) (fun _ hs => hs ▸ Rounds.of_init hpos hn)
    (fun _ _ _ h hs => h.exec hs) h

/-- With a larger count one thread passes the barrier alone. -/
theorem passes_alone {n : Nat} (hn : 2 ^ 31 ≤ n) (hlt : n < 2 ^ 32) :
    ∃ s, Reachable (system n) s ∧ s.arrivals = 1 ∧ s.departures = 1 := by
  have hmax : toInt n ≤ 1 := by
    rw [toInt, if_neg (Nat.not_lt.mpr hn)]
    omega
  obtain ⟨s, hs⟩ : ∃ s, [Act.wait 0, .go 0, .go 0, .go 0].foldlM State.exec (init n) = some s ∧ s.arrivals = 1 ∧ s.departures = 1 := by
    simp [List.foldlM, State.exec, State.go, init, State.setPlace, State.lock, State.setMutex, State.arrive, State.depart, State.broadcast, hmax]
  exact ⟨s, Reachable.of_foldlM (S := system n) (fun _ _ _ _ h => h) (.init rfl) hs.1, hs.2⟩

/-- The barrier works as one, in every order of its threads' steps, exactly for the counts that fit in an `int`. -/
theorem barrier_correct_iff {n : Nat} (hpos : 1 ≤ n) (hlt : n < 2 ^ 32) :
    (∀ s, Reachable (system n) s → Correct n s) ↔ n < 2 ^ 31 := by
  constructor
  · intro h
    by_contra hn
    obtain ⟨s, hs, harr, hdep⟩ := passes_alone (Nat.not_lt.mp hn) hlt
    have hround := (h s hs).round
    rw [harr, hdep, Nat.div_eq_of_lt (by omega)] at hround
    omega
  · intro hn s hs
    exact (reachable_rounds hpos hn hs).correct

theorem barrier_correct_two : (1 ≤ 2 ∧ 2 < 2 ^ 32) ∧ ∀ s, Reachable (system 2) s → Correct 2 s :=
  ⟨by decide, (barrier_correct_iff (by decide) (by decide)).mpr (by decide)⟩

/-- One thread passes a barrier for `2 ^ 31` threads. -/
theorem barrier_count_overflows : ¬ ∀ s, Reachable (system (2 ^ 31)) s → Correct (2 ^ 31) s := by
  intro h
  obtain ⟨s, hs, harr, hdep⟩ := @passes_alone (2 ^ 31) (by decide) (by decide)
  have hround := (h s hs).round
  rw [harr, hdep] at hround
  revert hround
  decide

end Barrier

end DoubleTake
