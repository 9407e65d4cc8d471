import DoubleTake.Theorems.Commit

/-! The count of the threads that are parked. Each thread that `stopAllThreads` signals is counted once, and the count is
    back at zero when `global_epochBegin` returns, unless the wait in `global_epochBegin` ends too early. -/

namespace DoubleTake

open Transition

namespace Commit

/-- The thread is in the count of the waiters. -/
def Handler.counted : Handler → Bool
  | .loop | .asleep | .relock | .leave => true
  | _ => false

/-- The thread is not in the count of the waiters yet. -/
def Handler.coming : Handler → Bool
  | .lock | .arrive => true
  | _ => false

theorem countP_add_one {k : List Nat} {p q : Nat → Bool} {t : Nat} (hk : k.Nodup) (ht : t ∈ k) (hp : p t = false)
    (hq : q t = true) (hne : ∀ u, u ≠ t → q u = p u) : k.countP q = k.countP p + 1 := by
  induction k with
  | nil => cases ht
  | cons u k ih =>
    obtain ⟨hu, hk⟩ := List.nodup_cons.mp hk
    by_cases hut : u = t
    · subst hut
      have hsame : k.countP q = k.countP p := List.countP_congr fun v hv => by
        rw [hne v (fun h => hu (h ▸ hv))]
      simp [hp, hq, hsame]
    · have hmem : t ∈ k := (List.mem_cons.mp ht).resolve_left (Ne.symm hut)
      rw [List.countP_cons, List.countP_cons, hne u hut, ih hk hmem]
      omega

namespace State

variable {s s' : State} {t u : Nat} {a : Act} {c : Committer} {k : List Nat}

def counted (s : State) (u : Nat) : Bool := (s.handler u).any Handler.counted

def coming (s : State) (u : Nat) : Bool := (s.handler u).any Handler.coming

/-- The waiters are the threads of `k` that have arrived; no other thread has been signalled. -/
structure Round (s : State) (k : List Nat) : Prop where
  nodup : k.Nodup
  waiters : s.waiters = k.countP s.counted
  counted : ∀ u, s.counted u = true → u ∈ k
  coming : ∀ u, s.coming u = true → u ∈ k
  pending : ∀ u, s.pending u = true → u ∈ k ∧ s.counted u = false ∧ s.coming u = false

theorem counted_setHandler {o : Option Handler} :
    (s.setHandler t o).counted u = if u = t then o.any Handler.counted else s.counted u := by
  by_cases hu : u = t <;> simp [State.counted, State.setHandler, hu]

theorem coming_setHandler {o : Option Handler} :
    (s.setHandler t o).coming u = if u = t then o.any Handler.coming else s.coming u := by
  by_cases hu : u = t <;> simp [State.coming, State.setHandler, hu]

theorem not_coming_of_counted (h : s.counted u = true) : s.coming u = false := by
  rw [State.counted] at h
  rw [State.coming]
  cases hu : s.handler u with
  | none => rfl
  | some x => cases x <;> simp_all [Handler.counted, Handler.coming]

theorem Round.congr (h : s.Round k) (hw : s'.waiters = s.waiters) (hh : s'.handler = s.handler)
    (hp : ∀ u, s'.pending u = true → s.pending u = true) : s'.Round k := by
  have hc : s'.counted = s.counted := by
    funext u
    simp [State.counted, hh]
  have hf : s'.coming = s.coming := by
    funext u
    simp [State.coming, hh]
  refine ⟨h.nodup, ?_, ?_, ?_, ?_⟩
  · rw [hw, hc]
    exact h.waiters
  · rw [hc]
    exact h.counted
  · rw [hf]
    exact h.coming
  · rw [hc, hf]
    exact fun u hu => h.pending u (hp u hu)

/-- A thread goes on in the handler and stays in the count, or out of it. -/
theorem Round.setHandler {o : Option Handler} (h : s.Round k) (hc : o.any Handler.counted = s.counted t)
    (hf : o.any Handler.coming = s.coming t) : (s.setHandler t o).Round k := by
  have hc' : (s.setHandler t o).counted = s.counted := by
    funext u
    rw [counted_setHandler]
    split
    · rename_i hu
      rw [hc, hu]
    · rfl
  have hf' : (s.setHandler t o).coming = s.coming := by
    funext u
    rw [coming_setHandler]
    split
    · rename_i hu
      rw [hf, hu]
    · rfl
  refine ⟨h.nodup, ?_, ?_, ?_, ?_⟩
  · rw [hc']
    exact h.waiters
  · rw [hc']
    exact h.counted
  · rw [hf']
    exact h.coming
  · rw [hc', hf']
    exact h.pending

theorem Round.arrive (h : s.Round k) (ht : s.handler t = some .arrive) :
    ((s.setWaiters (s.waiters + 1)).setHandler t (some .loop)).Round k := by
  have hcoming : s.coming t = true := by simp [State.coming, ht, Handler.coming]
  have hcounted : s.counted t = false := by simp [State.counted, ht, Handler.counted]
  have hmem := h.coming t hcoming
  have hc : ∀ u, ((s.setWaiters (s.waiters + 1)).setHandler t (some .loop)).counted u = if u = t then true else s.counted u :=
    fun u => counted_setHandler
  have hf : ∀ u, ((s.setWaiters (s.waiters + 1)).setHandler t (some .loop)).coming u = if u = t then false else s.coming u :=
    fun u => coming_setHandler
  refine ⟨h.nodup, ?_, fun u hu => ?_, fun u hu => ?_, fun u hu => ?_⟩
  · rw [countP_add_one h.nodup hmem hcounted (by rw [hc, if_pos rfl]) (fun u hu => by rw [hc, if_neg hu])]
    simp only [State.setWaiters, State.setHandler, h.waiters]
    push_cast
    rfl
  · rw [hc] at hu
    split at hu
    · rename_i hut
      rwa [hut]
    · exact h.counted u hu
  · rw [hf] at hu
    split at hu
    · cases hu
    · exact h.coming u hu
  · obtain ⟨hk, hcu, hfu⟩ := h.pending u hu
    have hut : u ≠ t := by
      rintro rfl
      rw [hcoming] at hfu
      cases hfu
    rw [hc, hf, if_neg hut, if_neg hut]
    exact ⟨hk, hcu, hfu⟩

theorem Round.leave (h : s.Round k) (ht : s.handler t = some .leave) :
    ((s.setWaiters (s.waiters - 1)).setHandler t (some .unlock)).Round k := by
  have hcounted : s.counted t = true := by simp [State.counted, ht, Handler.counted]
  have hmem := h.counted t hcounted
  have hc : ∀ u, ((s.setWaiters (s.waiters - 1)).setHandler t (some .unlock)).counted u = if u = t then false else s.counted u :=
    fun u => counted_setHandler
  have hf : ∀ u, ((s.setWaiters (s.waiters - 1)).setHandler t (some .unlock)).coming u = if u = t then false else s.coming u :=
    fun u => coming_setHandler
  refine ⟨h.nodup, ?_, fun u hu => ?_, fun u hu => ?_, fun u hu => ?_⟩
  · have hcount := countP_add_one (p := ((s.setWaiters (s.waiters - 1)).setHandler t (some .unlock)).counted) (q := s.counted)
      h.nodup hmem (by rw [hc, if_pos rfl]) hcounted (fun u hu => by rw [hc, if_neg hu])
    have hw := h.waiters
    simp only [State.setWaiters, State.setHandler] at hcount ⊢
    omega
  · rw [hc] at hu
    split at hu
    · cases hu
    · exact h.counted u hu
  · rw [hf] at hu
    split at hu
    · cases hu
    · exact h.coming u hu
  · obtain ⟨hk, hcu, hfu⟩ := h.pending u hu
    have hut : u ≠ t := by
      rintro rfl
      rw [hcounted] at hcu
      cases hcu
    rw [hc, hf, if_neg hut, if_neg hut]
    exact ⟨hk, hcu, hfu⟩

/-- A signal is delivered. -/
theorem Round.deliver (h : s.Round k) (ht : s.pending t = true) : ((s.setPending t false).setHandler t (some .lock)).Round k := by
  obtain ⟨hmem, hct, hft⟩ := h.pending t ht
  have hc : ∀ u, ((s.setPending t false).setHandler t (some .lock)).counted u = if u = t then false else s.counted u :=
    fun u => counted_setHandler
  have hf : ∀ u, ((s.setPending t false).setHandler t (some .lock)).coming u = if u = t then true else s.coming u :=
    fun u => coming_setHandler
  have hc' : ((s.setPending t false).setHandler t (some .lock)).counted = s.counted := by
    funext u
    rw [hc]
    split
    · rename_i hu
      rw [hu, hct]
    · rfl
  refine ⟨h.nodup, ?_, ?_, fun u hu => ?_, fun u hu => ?_⟩
  · rw [hc']
    exact h.waiters
  · rw [hc']
    exact h.counted
  · rw [hf] at hu
    split at hu
    · rename_i hut
      rwa [hut]
    · exact h.coming u hu
  · have hut : u ≠ t := by
      rintro rfl
      simp [State.setPending, State.setHandler] at hu
    rw [hc', hf, if_neg hut]
    exact h.pending u (by simpa [State.setPending, State.setHandler, hut] using hu)

/-- A thread that has not been signalled in the round is. -/
theorem Round.kill (h : s.Round k) (hu : u ∉ k) : (s.setPending u true).Round (k ++ [u]) := by
  have hcu : s.counted u = false := by
    by_contra hc
    exact hu (h.counted u (by simpa using hc))
  have hfu : s.coming u = false := by
    by_contra hf
    exact hu (h.coming u (by simpa using hf))
  refine ⟨?_, ?_, fun v hv => List.mem_append_left _ (h.counted v hv), fun v hv => List.mem_append_left _ (h.coming v hv),
    fun v hv => ?_⟩
  · exact List.nodup_append.mpr ⟨h.nodup, List.pairwise_singleton _ u, fun _ ha _ hb hab =>
      hu (List.mem_singleton.mp hb ▸ hab ▸ ha)⟩
  · show s.waiters = ((k ++ [u]).countP s.counted : Nat)
    rw [List.countP_append, List.countP_singleton, hcu]
    exact h.waiters
  · by_cases hvu : v = u
    · subst hvu
      exact ⟨by simp, hcu, hfu⟩
    · obtain ⟨hk, hrest⟩ := h.pending v (by simpa [State.setPending, hvu] using hv)
      exact ⟨List.mem_append_left _ hk, hrest⟩

/-- All signalled threads have arrived. -/
theorem Round.all_counted (h : s.Round k) (hw : s.waiters = k.length) : ∀ u ∈ k, s.counted u = true := by
  have hcount := h.waiters
  exact List.countP_eq_length.mp (by omega)

/-- All threads have left, and no thread is on its way. -/
theorem Round.empty (h : s.Round k) (hw : s.waiters = 0) (hf : ∀ u, s.coming u = false) (hp : ∀ u, s.pending u = false) :
    s.Round [] where
  nodup := List.nodup_nil
  waiters := hw
  counted := by
    intro u hu
    have hcount := h.waiters
    have hzero : k.countP s.counted = 0 := by omega
    exact absurd hu (List.countP_eq_zero.mp hzero u (h.counted u hu))
  coming := fun u hu => by rw [hf u] at hu; cases hu
  pending := fun u hu => by rw [hp u] at hu; cases hu

/-- What holds when a thread is at `c` in `epochEnd` or `epochBegin` and has signalled the threads of `k`. -/
structure Good (s : State) (c : Committer) (k : List Nat) : Prop where
  rolling : c.stage ≠ .rolling
  before : c.stage = .before ∨ c = .globalLock → k = []
  round : c.stage ≠ .done → s.Round k
  done : c.stage = .done → s.Round []
  closed : c.stage.closed = true → s.phase = .epochEnd ∧ ∀ u, s.handler u ≠ some .leave
  full : c.stage = .stopped ∨ c.stage = .committing → s.waiters = k.length
  leaving : c.stage = .leaving → ∀ u, s.coming u = false ∧ s.pending u = false
  stop : ∀ us, c = .stop us → (k ++ us).Nodup
  total : c = .waitLoop ∨ c = .waitSleep ∨ c = .waitRelock → s.waitersTotal = k.length

theorem Good.congr (h : s.Good c k) (hphase : s'.phase = s.phase) (hw : s'.waiters = s.waiters)
    (htotal : s'.waitersTotal = s.waitersTotal) (hh : s'.handler = s.handler)
    (hp : ∀ u, s'.pending u = true → s.pending u = true) : s'.Good c k where
  rolling := h.rolling
  before := h.before
  round := fun hc => (h.round hc).congr hw hh hp
  done := fun hc => (h.done hc).congr hw hh hp
  closed := fun hc => by
    rw [hphase, hh]
    exact h.closed hc
  full := fun hc => by
    rw [hw]
    exact h.full hc
  leaving := fun hc u => by
    obtain ⟨hf, hpu⟩ := h.leaving hc u
    refine ⟨by simpa [State.coming, hh] using hf, ?_⟩
    by_contra hne
    have := hp u (by simpa using hne)
    rw [hpu] at this
    cases this
  stop := h.stop
  total := fun hc => by
    rw [htotal]
    exact h.total hc

/-- The threads are being stopped. -/
theorem Round.good_stopping (h : s.Round k) (hc : c.stage = .stopping) (hlock : c = .globalLock → k = [])
    (hclosed : s.phase = .epochEnd ∧ ∀ u, s.handler u ≠ some .leave) (hstop : ∀ us, c = .stop us → (k ++ us).Nodup)
    (htotal : c = .waitLoop ∨ c = .waitSleep ∨ c = .waitRelock → s.waitersTotal = k.length) : s.Good c k where
  rolling := by simp [hc]
  before := by
    rintro (hb | rfl)
    · rw [hc] at hb
      cases hb
    · exact hlock rfl
  round := fun _ => h
  done := by simp [hc]
  closed := fun _ => hclosed
  full := by simp [hc]
  leaving := by simp [hc]
  stop := hstop
  total := htotal

/-- All threads have left. -/
theorem Round.good_done (h : s.Round []) (hc : c.stage = .done) : s.Good c k where
  rolling := by simp [hc]
  before := by
    rintro (hb | rfl)
    · rw [hc] at hb
      cases hb
    · cases hc
  round := fun hne => absurd hc hne
  done := fun _ => h
  closed := by simp [hc, Stage.closed]
  full := by simp [hc]
  leaving := by simp [hc]
  stop := by
    rintro us rfl
    cases hc
  total := by rintro (rfl | rfl | rfl) <;> cases hc

/-- The thread that ends the epoch is woken up. -/
theorem Good.wake (h : s.Good c k) (hw : c = .beginSleep → s.waiters = 0) : s.Good c.wake k := by
  cases c with
  | waitSleep =>
    have hround := h.round (by simp [Committer.stage])
    exact hround.good_stopping (c := .waitRelock) rfl (by simp) (h.closed rfl) (by simp) fun _ => h.total (.inr (.inl rfl))
  | beginSleep =>
    have hround := h.round (by simp [Committer.stage])
    exact (hround.empty (hw rfl) (fun u => (h.leaving rfl u).1) (fun u => (h.leaving rfl u).2)).good_done
      (c := .beginRelock) rfl
  | _ => exact h

/-- Nobody is on the way once all signalled threads have arrived, and nobody is when all have left. -/
theorem Good.stopping (h : s.Good c k) (ht : s.coming t = true ∨ s.pending t = true) : c.stage = .stopping := by
  have hnil : ∀ (hr : s.Round []), False := by
    intro hr
    rcases ht with ht | ht
    · exact List.not_mem_nil (hr.coming t ht)
    · exact List.not_mem_nil (hr.pending t ht).1
  have hfull : c.stage = .stopped ∨ c.stage = .committing → False := by
    intro hc
    have hr := h.round (by rcases hc with hc | hc <;> simp [hc])
    have hall := hr.all_counted (h.full hc)
    rcases ht with ht | ht
    · have hcounted := hall t (hr.coming t ht)
      rw [not_coming_of_counted hcounted] at ht
      cases ht
    · obtain ⟨hk, hct, -⟩ := hr.pending t ht
      rw [hall t hk] at hct
      cases hct
  cases hc : c.stage with
  | stopping => rfl
  | before => exact (hnil (h.before (.inl hc) ▸ h.round (by simp [hc]))).elim
  | stopped => exact (hfull (.inl hc)).elim
  | rolling => exact absurd hc h.rolling
  | committing => exact (hfull (.inr hc)).elim
  | leaving =>
    obtain ⟨hf, hp⟩ := h.leaving hc t
    rw [hf, hp] at ht
    simp at ht
  | done => exact (hnil (h.done hc)).elim

/-- A thread leaves the count only while `global_epochBegin` waits for it. -/
theorem Good.isLeaving (h : s.Good c k) (ht : s.handler t = some .leave) : c.stage = .leaving := by
  have hcounted : s.counted t = true := by simp [State.counted, ht, Handler.counted]
  have hnil : ∀ (hr : s.Round []), False := fun hr => List.not_mem_nil (hr.counted t hcounted)
  have hclosed : c.stage.closed = true → False := fun hc => (h.closed hc).2 t ht
  cases hc : c.stage with
  | leaving => rfl
  | before => exact (hnil (h.before (.inl hc) ▸ h.round (by simp [hc]))).elim
  | stopped | stopping | committing | rolling => exact (hclosed (by rw [hc]; rfl)).elim
  | done => exact (hnil (h.done hc)).elim

/-- A thread goes on in the handler and stays in the count, or out of it. -/
theorem Good.setHandler {o : Option Handler} (h : s.Good c k) (hc : o.any Handler.counted = s.counted t)
    (hf : o.any Handler.coming = s.coming t) (hl : o = some .leave → s.phase ≠ .epochEnd) : (s.setHandler t o).Good c k where
  rolling := h.rolling
  before := h.before
  round := fun hst => (h.round hst).setHandler hc hf
  done := fun hst => (h.done hst).setHandler hc hf
  closed := by
    intro hst
    obtain ⟨hphase, hleave⟩ := h.closed hst
    refine ⟨hphase, fun u => ?_⟩
    by_cases hu : u = t
    · subst hu
      simpa [State.setHandler] using fun ho => hl ho hphase
    · simpa [State.setHandler, hu] using hleave u
  full := h.full
  leaving := by
    intro hst u
    rw [coming_setHandler]
    split
    · rename_i hu
      subst hu
      rw [hf]
      exact h.leaving hst u
    · exact h.leaving hst u
  stop := h.stop
  total := h.total

theorem Good.arrive (h : s.Good c k) (ht : s.handler t = some .arrive) :
    ((s.setWaiters (s.waiters + 1)).setHandler t (some .loop)).Good c k := by
  have hst := h.stopping (t := t) (.inl (by simp [State.coming, ht, Handler.coming]))
  refine ⟨h.rolling, h.before, fun _ => (h.round (by rw [hst]; simp)).arrive ht, ?_, fun _ => ?_, ?_, ?_, h.stop, h.total⟩
  · rw [hst]
    simp
  · obtain ⟨hphase, hleave⟩ := h.closed (by rw [hst]; rfl)
    refine ⟨hphase, fun u => ?_⟩
    by_cases hu : u = t
    · simp [State.setHandler, hu]
    · simpa [State.setHandler, State.setWaiters, hu] using hleave u
  · rw [hst]
    simp
  · rw [hst]
    simp

theorem Good.leave (h : s.Good c k) (ht : s.handler t = some .leave) :
    ((s.setWaiters (s.waiters - 1)).setHandler t (some .unlock)).Good c k := by
  have hst := h.isLeaving ht
  refine ⟨h.rolling, h.before, fun _ => (h.round (by rw [hst]; simp)).leave ht, ?_, ?_, ?_, fun _ u => ?_, h.stop, h.total⟩
  · rw [hst]
    simp
  · simp [hst, Stage.closed]
  · rw [hst]
    simp
  · obtain ⟨hf, hp⟩ := h.leaving hst u
    refine ⟨?_, hp⟩
    rw [coming_setHandler]
    split
    · rfl
    · exact hf

theorem Good.deliver (h : s.Good c k) (ht : s.pending t = true) : ((s.setPending t false).setHandler t (some .lock)).Good c k := by
  have hst := h.stopping (t := t) (.inr ht)
  refine ⟨h.rolling, h.before, fun _ => (h.round (by rw [hst]; simp)).deliver ht, ?_, fun _ => ?_, ?_, ?_, h.stop, h.total⟩
  · rw [hst]
    simp
  · obtain ⟨hphase, hleave⟩ := h.closed (by rw [hst]; rfl)
    refine ⟨hphase, fun u => ?_⟩
    by_cases hu : u = t
    · simp [State.setHandler, hu]
    · simpa [State.setHandler, State.setPending, hu] using hleave u
  · rw [hst]
    simp
  · rw [hst]
    simp

/-- One thread ends the epoch at a time, every epoch is committed, and the wait in `global_epochBegin` ends with a
    notification. -/
def notified (s : State) : Act → Prop
  | .epochEnd _ => ∀ u c k, s.place u ≠ .committer c k
  | .outcome _ error => error = false
  | .spurious t => ∀ k, s.place t ≠ .committer .beginSleep k
  | _ => True

structure Accounted (s : State) : Prop where
  one : s.One
  alive : s.alive.Nodup
  isRollback : s.isRollback = false
  handler : ∀ u, s.handler u ≠ some .rollback
  good : ∀ t c k, s.place t = .committer c k → s.Good c k
  idle : (∀ t c k, s.place t ≠ .committer c k) → s.Round []

/-- A step of a thread in the handler, or of one outside of it and of `epochEnd` and `epochBegin`. -/
theorem Accounted.kept (h : s.Accounted) (halive : s'.alive.Nodup) (hroll : s'.isRollback = false)
    (hhandler : ∀ u, s'.handler u ≠ some .rollback)
    (hplace : ∀ u c k, s'.place u = .committer c k ↔ s.place u = .committer c k) (hgood : ∀ c k, s.Good c k → s'.Good c k) :
    s'.Accounted where
  one := fun t c k t' c' k' ht ht' => h.one t c k t' c' k' ((hplace t c k).mp ht) ((hplace t' c' k').mp ht')
  alive := halive
  isRollback := hroll
  handler := hhandler
  good := fun t c k ht => hgood c k (h.good t c k ((hplace t c k).mp ht))
  idle := by
    intro hno
    have hr := h.idle fun t c k ht => hno t c k ((hplace t c k).mpr ht)
    -- Before the next epoch ends it is as after the end of the last one.
    have hgood₀ : s.Good .saveContext [] := hr.good_done rfl
    exact (hgood .saveContext [] hgood₀).done rfl

/-- The same stage further on. -/
theorem Good.next {c' : Committer} (h : s.Good c k) (hst : c'.stage = c.stage) (hlock : c' = .globalLock → k = [])
    (hstop : ∀ us, c' = .stop us → (k ++ us).Nodup)
    (htotal : c' = .waitLoop ∨ c' = .waitSleep ∨ c' = .waitRelock → s.waitersTotal = k.length) : s.Good c' k where
  rolling := hst ▸ h.rolling
  before := fun hc => hc.elim (fun hc => h.before (.inl (hst ▸ hc))) hlock
  round := hst ▸ h.round
  done := hst ▸ h.done
  closed := hst ▸ h.closed
  full := hst ▸ h.full
  leaving := hst ▸ h.leaving
  stop := hstop
  total := htotal

/-- `global_waitThreadsStops` returns, or there is nobody to wait for. -/
theorem Good.stopped {c' : Committer} (h : s.Good c k) (hst : c.stage = .stopping) (hst' : c'.stage = .stopped)
    (hfull : s.waiters = k.length) : s.Good c' k where
  rolling := by simp [hst']
  before := by
    rintro (hc | rfl)
    · rw [hst'] at hc
      cases hc
    · cases hst'
  round := fun _ => h.round (by simp [hst])
  done := by simp [hst']
  closed := fun _ => h.closed (by rw [hst]; rfl)
  full := fun _ => hfull
  leaving := by simp [hst']
  stop := by
    rintro us rfl
    cases hst'
  total := by rintro (rfl | rfl | rfl) <;> cases hst'

theorem counted_broadcastWaiters : s.broadcastWaiters.counted = s.counted := by
  funext u
  simp only [State.counted, State.broadcastWaiters]
  cases s.handler u with
  | none => rfl
  | some x => cases x <;> rfl

theorem coming_broadcastWaiters : s.broadcastWaiters.coming = s.coming := by
  funext u
  simp only [State.coming, State.broadcastWaiters]
  cases s.handler u with
  | none => rfl
  | some x => cases x <;> rfl

theorem rollback_broadcastWaiters (hu : s.broadcastWaiters.handler u = some .rollback) :
    s.handler u = some .rollback := by
  simp only [State.broadcastWaiters] at hu
  cases hx : s.handler u with
  | none =>
    rw [hx] at hu
    cases hu
  | some x => cases x <;> simp_all [Handler.wake]

/-- The broadcast wakes threads up that stay in the count. -/
theorem Round.broadcastWaiters (h : s.Round k) : s.broadcastWaiters.Round k := by
  refine ⟨h.nodup, ?_, ?_, ?_, ?_⟩
  · rw [counted_broadcastWaiters]
    exact h.waiters
  · rw [counted_broadcastWaiters]
    exact h.counted
  · rw [coming_broadcastWaiters]
    exact h.coming
  · rw [counted_broadcastWaiters, coming_broadcastWaiters]
    exact h.pending

/-- What holds after a step in `epochEnd` or `epochBegin`. -/
structure Committed (t : Nat) (s s' : State) : Prop where
  alive : s'.alive.Nodup
  isRollback : s'.isRollback = s.isRollback
  handler : ∀ u, s'.handler u = some .rollback → s.handler u = some .rollback
  next : (s'.place t = .program ∧ s'.Round []) ∨ ∃ c' k', s'.place t = .committer c' k' ∧ s'.Good c' k'

/-- A step after which the data is as before. -/
theorem Committed.of_good {x : State} {c' : Committer} {k' : List Nat} (halive : x.alive.Nodup)
    (hroll : x.isRollback = s.isRollback) (hhandler : ∀ u, x.handler u = some .rollback → s.handler u = some .rollback)
    (hg : x.Good c' k') : Committed t s (x.setPlace t (.committer c' k')) :=
  ⟨halive, hroll, hhandler, .inr ⟨c', k', by simp [State.setPlace], hg.congr rfl rfl rfl rfl fun _ => id⟩⟩

/-- `stopAllThreads` signals the next thread, or goes on to the wait for the threads. -/
theorem Good.stopThread {us : List Nat} (hg : s.Good (.stop us) k) (halive : s.alive.Nodup)
    (hs : s.commit t k (.stop us) = some s') : Committed t s s' := by
  have hround := hg.round (by simp [Committer.stage])
  cases us with
  | nil =>
    cases hs
    refine .of_good halive rfl (fun _ => id) ?_
    split
    · rename_i hk
      subst hk
      exact hg.stopped rfl rfl hround.waiters
    · exact hg.next rfl (by simp) (by simp) (by simp)
  | cons u us =>
    have hnodup := hg.stop _ rfl
    have hus : (k ++ us).Nodup := hnodup.sublist (List.Sublist.append_left (List.sublist_cons_self u us) k)
    have hnext : s.Good (.stop us) k := hg.next rfl (by simp) (by rintro us' ⟨⟩; exact hus) (by simp)
    simp only [State.commit] at hs
    split at hs
    · cases hs
      exact .of_good halive rfl (fun _ => id) hnext
    · split at hs <;> cases hs
      rw [State.kill]
      split
      · exact .of_good halive rfl (fun _ => id) hnext
      · -- The thread is signalled for the first time in the round.
        have hu : u ∉ k := fun hmem =>
          (List.nodup_append.mp hnodup).2.2 u hmem u (List.mem_cons_self ..) rfl
        refine .of_good (x := s.setPending u true) halive rfl (fun _ => id) ?_
        have hsplit : (k ++ [u] ++ us).Nodup := by simpa using hnodup
        exact (hround.kill hu).good_stopping rfl (by simp) (hg.closed rfl) (by rintro us' ⟨⟩; exact hsplit) (by simp)

/-- `global_epochBegin` wakes the threads up, and sleeps until they have left. -/
theorem Good.beginNotify (hg : s.Good .beginNotify k) (halive : s.alive.Nodup)
    (hs : s.commit t k .beginNotify = some s') : Committed t s s' := by
  have hround := (hg.round (by simp [Committer.stage])).broadcastWaiters
  -- Nobody is on the way to the handler any more.
  have hcoming : ∀ u, s.broadcastWaiters.coming u = false ∧ s.pending u = false := by
    intro u
    rw [coming_broadcastWaiters]
    constructor <;> by_contra hu
    · cases hg.stopping (t := u) (.inl (by simpa using hu))
    · cases hg.stopping (t := u) (.inr (by simpa using hu))
  simp only [State.commit] at hs
  split at hs <;> cases hs
  · refine .of_good (x := (s.setPhase .epochBegin).broadcastWaiters.setMutexSignalhandler none) halive rfl
      (fun _ => rollback_broadcastWaiters) ?_
    exact ⟨by simp [Committer.stage], by simp [Committer.stage], fun _ => hround.congr rfl rfl fun _ => id,
      by simp [Committer.stage], by simp [Committer.stage, Stage.closed], by simp [Committer.stage], fun _ => hcoming,
      by simp, by simp⟩
  · rename_i hw
    refine .of_good (x := (s.setPhase .epochBegin).broadcastWaiters) halive rfl (fun _ => rollback_broadcastWaiters) ?_
    have hzero : s.waiters = 0 := by simpa using hw
    have hempty := hround.empty hzero (fun u => (hcoming u).1) fun u => (hcoming u).2
    have hround' : ((s.setPhase .epochBegin).broadcastWaiters).Round [] := hempty.congr rfl rfl fun _ => id
    exact hround'.good_done rfl

theorem Good.commit (hg : s.Good c k) (halive : s.alive.Nodup) (hs : s.commit t k c = some s') : Committed t s s' := by
  cases c with
  | waitSleep | stopped | spin | beginSleep => cases hs
  | rollback | setRollback | wakeupOldWaitingThreads | globalWakeup | checkRollbackCurrent => exact absurd rfl hg.rolling
  | checkWaiters =>
    simp only [State.commit] at hs
    split at hs <;> cases hs
    exact .of_good halive rfl (fun _ => id) (hg.next rfl (by simp) (by simp) (by simp))
  | setEpochEnd =>
    cases hs
    obtain rfl := hg.before (.inl rfl)
    have hr := hg.round (by simp [Committer.stage])
    refine .of_good (x := s.setPhase .epochEnd) halive rfl (fun _ => id) ?_
    have hno : ∀ u, s.handler u ≠ some .leave := fun u hu =>
      List.not_mem_nil (hr.counted u (by simp [State.counted, hu, Handler.counted]))
    have hr' : (s.setPhase .epochEnd).Round [] := hr.congr rfl rfl fun _ => id
    exact hr'.good_stopping rfl (fun _ => rfl) ⟨rfl, hno⟩ (by simp) (by simp)
  | globalLock =>
    simp only [State.commit] at hs
    split at hs <;> cases hs
    obtain rfl := hg.before (.inr rfl)
    refine .of_good (x := s.setMutex (some t)) halive rfl (fun _ => id) ?_
    have hnext : s.Good (.stop s.alive) [] := hg.next rfl (by simp) (by rintro us ⟨⟩; exact halive) (by simp)
    exact hnext.congr rfl rfl rfl rfl fun _ => id
  | stop us => exact hg.stopThread halive hs
  | waitLock =>
    simp only [State.commit] at hs
    split at hs <;> cases hs
    refine .of_good (x := (s.setMutexSignalhandler (some t)).setWaitersTotal k.length) halive rfl (fun _ => id) ?_
    have hr : ((s.setMutexSignalhandler (some t)).setWaitersTotal k.length).Round k :=
      (hg.round (by simp [Committer.stage])).congr rfl rfl fun _ => id
    exact hr.good_stopping rfl (by simp) (hg.closed rfl) (by simp) fun _ => rfl
  | waitLoop =>
    have htotal := hg.total (.inl rfl)
    simp only [State.commit] at hs
    split at hs <;> cases hs
    · have hnext : s.Good .waitSleep k := hg.next rfl (by simp) (by simp) fun _ => htotal
      exact .of_good (x := s.setMutexSignalhandler none) halive rfl (fun _ => id) (hnext.congr rfl rfl rfl rfl fun _ => id)
    · rename_i heq
      refine .of_good halive rfl (fun _ => id) (hg.stopped rfl rfl ?_)
      omega
  | waitRelock =>
    simp only [State.commit] at hs
    split at hs <;> cases hs
    have hnext : s.Good .waitLoop k := hg.next rfl (by simp) (by simp) fun _ => hg.total (.inr (.inr rfl))
    exact .of_good (x := s.setMutexSignalhandler (some t)) halive rfl (fun _ => id) (hnext.congr rfl rfl rfl rfl fun _ => id)
  | waitUnlock =>
    cases hs
    have hnext : s.Good .globalUnlock k := hg.next rfl (by simp) (by simp) (by simp)
    exact .of_good (x := s.setMutexSignalhandler none) halive rfl (fun _ => id) (hnext.congr rfl rfl rfl rfl fun _ => id)
  | globalUnlock =>
    cases hs
    have hnext : s.Good .stopped k := hg.next rfl (by simp) (by simp) (by simp)
    exact .of_good (x := s.setMutex none) halive rfl (fun _ => id) (hnext.congr rfl rfl rfl rfl fun _ => id)
  | epochEndWell =>
    cases hs
    exact .of_good halive rfl (fun _ => id) (hg.next rfl (by simp) (by simp) (by simp))
  | begin us =>
    cases us with
    | nil =>
      cases hs
      exact .of_good halive rfl (fun _ => id) (hg.next rfl (by simp) (by simp) (by simp))
    | cons u us =>
      simp only [State.commit] at hs
      split at hs <;> cases hs
      · have hnext : s.Good (.reap u us) k := hg.next rfl (by simp) (by simp) (by simp)
        exact .of_good (x := (s.setStatus u .exiting).setPlace u (s.place u).wake) halive rfl (fun _ => id)
          (hnext.congr rfl rfl rfl rfl fun _ => id)
      · have hnext : s.Good (.begin us) k := hg.next rfl (by simp) (by simp) (by simp)
        exact .of_good (x := s.setSpawned u false) halive rfl (fun _ => id) (hnext.congr rfl rfl rfl rfl fun _ => id)
  | reap u us =>
    simp only [State.commit] at hs
    split at hs <;> cases hs
    exact .of_good halive rfl (fun _ => id) (hg.next rfl (by simp) (by simp) (by simp))
  | runDeferredSyncs =>
    simp only [State.commit] at hs
    split at hs <;> cases hs
    have hnext : s.Good .beginLock k := hg.next rfl (by simp) (by simp) (by simp)
    exact .of_good (x := { s with alive := s.alive.filter (· ∉ s.deferSyncs), deferSyncs := [] }) (halive.filter _) rfl
      (fun _ => id) (hnext.congr rfl rfl rfl rfl fun _ => id)
  | beginLock =>
    simp only [State.commit] at hs
    split at hs <;> cases hs
    have hnext : s.Good .beginNotify k := hg.next rfl (by simp) (by simp) (by simp)
    exact .of_good (x := s.setMutexSignalhandler (some t)) halive rfl (fun _ => id) (hnext.congr rfl rfl rfl rfl fun _ => id)
  | beginNotify => exact hg.beginNotify halive hs
  | beginRelock =>
    simp only [State.commit] at hs
    split at hs <;> cases hs
    have hnext : s.Good .beginUnlock k := (hg.done rfl).good_done rfl
    exact .of_good (x := s.setMutexSignalhandler (some t)) halive rfl (fun _ => id) (hnext.congr rfl rfl rfl rfl fun _ => id)
  | beginUnlock =>
    cases hs
    have hnext : s.Good .backup k := (hg.done rfl).good_done rfl
    exact .of_good (x := s.setMutexSignalhandler none) halive rfl (fun _ => id) (hnext.congr rfl rfl rfl rfl fun _ => id)
  | backup =>
    cases hs
    exact .of_good halive rfl (fun _ => id) ((hg.done rfl).good_done rfl)
  | saveContext =>
    cases hs
    exact ⟨halive, rfl, fun _ => id, .inl ⟨by simp [State.setPlace], (hg.done rfl).congr rfl rfl fun _ => id⟩⟩

theorem Accounted.commit (h : s.Accounted) (ht : s.place t = .committer c k) (hs : s.commit t k c = some s') :
    s'.Accounted := by
  obtain ⟨halive, hroll, hhandler, hnext⟩ := (h.good t c k ht).commit h.alive hs
  have hother : ∀ u c k, s'.place u = .committer c k → u = t := by
    intro u c' k' hu
    by_contra hut
    exact h.one.commit ht hs hut c' k' hu
  refine ⟨fun u c k u' c' k' hu hu' => ?_, halive, hroll.trans h.isRollback, fun u hu => h.handler u (hhandler u hu),
    fun u c' k' hu => ?_, fun hno => ?_⟩
  · rw [hother u c k hu, hother u' c' k' hu']
  · obtain rfl := hother u c' k' hu
    rcases hnext with ⟨hp, -⟩ | ⟨c'', k'', hp, hg⟩
    · rw [hp] at hu
      cases hu
    · rw [hp] at hu
      cases hu
      exact hg
  · rcases hnext with ⟨-, hr⟩ | ⟨c'', k'', hp, -⟩
    · exact hr
    · exact absurd hp (hno t c'' k'')

/-- The one thread in `epochEnd` or `epochBegin` goes on, and nothing else changes. -/
theorem Accounted.replace {c' : Committer} (h : s.Accounted) (ht : s.place t = .committer c k)
    (hg : s.Good c k → s.Good c' k) : (s.setPlace t (.committer c' k)).Accounted := by
  have hself : ∀ u c₁ k₁, (s.setPlace t (.committer c' k)).place u = .committer c₁ k₁ → u = t ∧ c₁ = c' ∧ k₁ = k := by
    intro u c₁ k₁ hu
    by_cases hut : u = t
    · have heq : c' = c₁ ∧ k = k₁ := by simpa [State.setPlace, hut] using hu
      exact ⟨hut, heq.1.symm, heq.2.symm⟩
    · exact absurd (by simpa [State.setPlace, hut] using hu) (h.one.other ht hut c₁ k₁)
  refine ⟨fun u c k u' c' k' hu hu' => (hself u c k hu).1.trans (hself u' c' k' hu').1.symm, h.alive, h.isRollback, h.handler,
    fun u c₁ k₁ hu => ?_, fun hno => absurd (by simp [State.setPlace]) (hno t c' k)⟩
  obtain ⟨-, rfl, rfl⟩ := hself u c₁ k₁ hu
  exact (hg (h.good t c k₁ ht)).congr rfl rfl rfl rfl fun _ => id

theorem Accounted.signalCommitter (h : s.Accounted) (hw : ∀ t k, s.place t = .committer .beginSleep k → s.waiters = 0) :
    s.signalCommitter.Accounted := by
  have hplace : ∀ u c k, s.signalCommitter.place u = .committer c k → ∃ c₀, s.place u = .committer c₀ k ∧ c = c₀.wake := by
    intro u c k hu
    simp only [State.signalCommitter] at hu
    cases hp : s.place u with
    | committer c₀ k₀ =>
      rw [hp] at hu
      cases hu
      exact ⟨c₀, rfl, rfl⟩
    | absent | program | asleep | woken | deferSync =>
      rw [hp] at hu
      cases hu
  refine ⟨fun t c k t' c' k' ht ht' => ?_, h.alive, h.isRollback, h.handler, fun t c k ht => ?_, fun hno => ?_⟩
  · obtain ⟨_, h₀, -⟩ := hplace t c k ht
    obtain ⟨_, h₀', -⟩ := hplace t' c' k' ht'
    exact h.one _ _ _ _ _ _ h₀ h₀'
  · obtain ⟨c₀, h₀, rfl⟩ := hplace t c k ht
    have hg := (h.good t c₀ k h₀).wake fun hc => hw t k (hc ▸ h₀)
    exact hg.congr rfl rfl rfl rfl fun _ => id
  · refine (h.idle fun t c k ht => ?_).congr rfl rfl fun _ => id
    exact hno t c.wake k (by simp [State.signalCommitter, ht, Place.wakeCommitter])

theorem Accounted.handle {x : Handler} (h : s.Accounted) (ht : s.handler t = some x) (hs : s.handle t x = some s') :
    s'.Accounted := by
  -- A step that keeps the thread in the count, or out of it.
  have hsame : ∀ {y : State} {o : Option Handler}, y.alive = s.alive → y.isRollback = s.isRollback → y.place = s.place →
      y.handler = s.handler → y.phase = s.phase → y.waiters = s.waiters → y.waitersTotal = s.waitersTotal →
      y.pending = s.pending → o.any Handler.counted = x.counted → o.any Handler.coming = x.coming →
      (o = some .leave → s.phase ≠ .epochEnd) → o ≠ some .rollback → (y.setHandler t o).Accounted := by
    intro y o halive hroll hplace hhandler hphase hw htotal hpending hc hf hl ho
    refine h.kept ?_ (hroll.trans h.isRollback) (fun u => ?_) (fun u c k => by simp [State.setHandler, hplace])
      (fun c k hg => ?_)
    · simpa [State.setHandler, halive] using h.alive
    · by_cases hu : u = t
      · simpa [State.setHandler, hu] using ho
      · simpa [State.setHandler, hu, hhandler] using h.handler u
    · have hg' : y.Good c k := hg.congr hphase hw htotal hhandler fun u hu => by rwa [hpending] at hu
      refine hg'.setHandler ?_ ?_ ?_
      · simpa [State.counted, hhandler, ht] using hc
      · simpa [State.coming, hhandler, ht] using hf
      · rwa [hphase]
  cases x with
  | asleep => cases hs
  | rollback => exact absurd ht (h.handler t)
  | lock =>
    simp only [State.handle] at hs
    split at hs <;> cases hs
    exact hsame rfl rfl rfl rfl rfl rfl rfl rfl rfl rfl (by simp) (by simp)
  | loop =>
    simp only [State.handle] at hs
    split at hs <;> cases hs
    · exact hsame rfl rfl rfl rfl rfl rfl rfl rfl rfl rfl (by simp) (by simp)
    · rename_i hphase
      exact hsame rfl rfl rfl rfl rfl rfl rfl rfl rfl rfl (fun _ => hphase) (by simp)
  | relock =>
    simp only [State.handle] at hs
    split at hs <;> cases hs
    exact hsame rfl rfl rfl rfl rfl rfl rfl rfl rfl rfl (by simp) (by simp)
  | unlock =>
    cases hs
    exact hsame rfl rfl rfl rfl rfl rfl rfl rfl rfl rfl (by simp) (by simp)
  | resume =>
    simp only [State.handle] at hs
    split at hs
    · cases hs
      exact hsame rfl rfl rfl rfl rfl rfl rfl rfl rfl rfl (by simp) (by simp)
    · rw [if_neg (by simp [h.isRollback])] at hs
      cases hs
  | arrive =>
    cases hs
    have hcore : ((s.setWaiters (s.waiters + 1)).setHandler t (some .loop)).Accounted := by
      refine h.kept h.alive h.isRollback (fun u => ?_) (fun _ _ _ => Iff.rfl) (fun c k hg => hg.arrive ht)
      by_cases hu : u = t
      · simp [State.setHandler, hu]
      · simpa [State.setHandler, State.setWaiters, hu] using h.handler u
    split
    · refine hcore.signalCommitter fun u k hu => ?_
      -- Nobody arrives while `global_epochBegin` waits.
      have hst := (h.good u .beginSleep k hu).stopping (t := t) (.inl (by simp [State.coming, ht, Handler.coming]))
      cases hst
    · exact hcore
  | leave =>
    cases hs
    have hcore : ((s.setWaiters (s.waiters - 1)).setHandler t (some .unlock)).Accounted := by
      refine h.kept h.alive h.isRollback (fun u => ?_) (fun _ _ _ => Iff.rfl) (fun c k hg => hg.leave ht)
      by_cases hu : u = t
      · simp [State.setHandler, hu]
      · simpa [State.setHandler, State.setWaiters, hu] using h.handler u
    split
    · rename_i hzero
      exact hcore.signalCommitter fun _ _ _ => hzero
    · exact hcore

theorem Accounted.exec (h : s.Accounted) (hn : s.notified a) (hs : s.exec a = some s') : s'.Accounted := by
  rcases exec_cases hs with hown | ⟨t, rfl, -, rfl⟩ | ⟨t, c, k, -, ht, hs⟩ | ⟨t, e, k, rfl, ht, rfl⟩ |
    ⟨t, c, k, rfl, ht, rfl⟩ | ⟨t, -, hp, -, -, rfl⟩ | ⟨t, x, -, ht, hs⟩ | ⟨t, -, ht, rfl⟩
  · refine h.kept (hown.alive h.alive) (hown.isRollback.trans h.isRollback) (fun u => ?_) hown.committer fun c k hg =>
      hg.congr hown.phase hown.waiters hown.waitersTotal hown.handler hown.pending
    rw [hown.handler]
    exact h.handler u
  · have hr := h.idle hn
    have hself : ∀ u c k, (s.setPlace t (.committer .checkWaiters [])).place u = .committer c k →
        u = t ∧ c = .checkWaiters ∧ k = [] := by
      intro u c k hu
      by_cases hut : u = t
      · have heq : Committer.checkWaiters = c ∧ [] = k := by simpa [State.setPlace, hut] using hu
        exact ⟨hut, heq.1.symm, heq.2.symm⟩
      · exact absurd (by simpa [State.setPlace, hut] using hu) (hn u c k)
    refine ⟨fun u c k u' c' k' hu hu' => (hself u c k hu).1.trans (hself u' c' k' hu').1.symm, h.alive, h.isRollback, h.handler,
      fun u c k hu => ?_, fun hno => absurd (by simp [State.setPlace]) (hno t .checkWaiters [])⟩
    obtain ⟨-, rfl, rfl⟩ := hself u c k hu
    have hr' : (s.setPlace t (.committer .checkWaiters [])).Round [] := hr.congr rfl rfl fun _ => id
    exact ⟨by simp [Committer.stage], fun _ => rfl, fun _ => hr', by simp [Committer.stage],
      by simp [Committer.stage, Stage.closed], by simp [Committer.stage], by simp [Committer.stage], by simp, by simp⟩
  · exact h.commit ht hs
  · -- The epoch is committed.
    obtain rfl : e = false := hn
    have hg := h.good t _ k ht
    have hnext : s.Good .epochEndWell k :=
      ⟨by simp [Committer.stage], by simp [Committer.stage], fun _ => hg.round (by simp [Committer.stage]),
        by simp [Committer.stage], fun _ => hg.closed rfl, fun _ => hg.full (.inl rfl), by simp [Committer.stage], by simp,
        by simp⟩
    rw [h.isRollback]
    refine h.replace ht fun _ => ?_
    exact hnext
  · refine h.replace ht fun hw => ?_
    exact hw.wake fun hc => absurd (hc ▸ ht) (hn k)
  · refine h.kept h.alive h.isRollback (fun u => ?_) (fun _ _ _ => Iff.rfl) fun c k hg => hg.deliver hp
    by_cases hu : u = t
    · simp [State.setHandler, hu]
    · simpa [State.setHandler, State.setPending, hu] using h.handler u
  · exact h.handle ht hs
  · refine h.kept h.alive h.isRollback (fun u => ?_) (fun _ _ _ => Iff.rfl) fun c k hg => hg.setHandler ?_ ?_ (by simp)
    · by_cases hu : u = t
      · simp [State.setHandler, hu]
      · simpa [State.setHandler, hu] using h.handler u
    · simp [State.counted, ht, Handler.counted]
    · simp [State.coming, ht, Handler.coming]

theorem Began.accounted (h : s.Began) : s.Accounted where
  one := fun t c k _ _ _ ht => absurd ht (h.place_ne t c k)
  alive := h.alive
  isRollback := h.isRollback
  handler := fun u => by simp [h.handler]
  good := fun t c k ht => absurd ht (h.place_ne t c k)
  idle := fun _ =>
    { nodup := List.nodup_nil
      waiters := h.waiters
      counted := fun u hu => by simp [State.counted, h.handler] at hu
      coming := fun u hu => by simp [State.coming, h.handler] at hu
      pending := fun u hu => by rw [h.pending] at hu; cases hu }

theorem reachable_accounted (h : Reachable (system.restrict notified) s) : s.Accounted :=
  Reachable.invariant (S := system.restrict notified) (P := Accounted) (fun _ h => h.accounted)
    (fun _ _ _ h hs => h.exec hs.1 hs.2) h

/-- `g_waiters` where `global_epochBegin` has just returned and where the next `stopAllThreads` checks it, and the threads
    that are parked where `global_waitThreadsStops` has just returned. -/
structure Balanced (s : State) : Prop where
  epochBegin : ∀ t k, s.place t = .committer .backup k → s.waiters = 0
  checkWaiters : ∀ t k, s.place t = .committer .checkWaiters k → s.waiters = 0
  stopped : ∀ t k, s.place t = .committer .globalUnlock k → ∀ u, s.parked u ↔ u ∈ k

theorem counted_iff_parked (h : s.handler u ≠ some .leave) : s.counted u = true ↔ s.parked u := by
  rw [State.counted, State.parked]
  cases hu : s.handler u with
  | none => simp
  | some x => cases x <;> simp_all [Handler.counted]

theorem waiters_balanced (h : Reachable (system.restrict notified) s) : s.Balanced := by
  have hgood := (reachable_accounted h).good
  refine ⟨fun t k ht => ((hgood t _ k ht).done rfl).waiters, fun t k ht => ?_, fun t k ht u => ?_⟩
  · obtain rfl := (hgood t _ k ht).before (.inl rfl)
    exact ((hgood t _ [] ht).round (by simp [Committer.stage])).waiters
  · have hg := hgood t _ k ht
    have hr := hg.round (by simp [Committer.stage])
    rw [← counted_iff_parked ((hg.closed rfl).2 u)]
    exact ⟨hr.counted u, hr.all_counted (hg.full (.inl rfl)) u⟩

theorem waiters_balanced_two : ∃ s, Reachable (system.restrict notified) s ∧ s.place 0 = .committer .globalUnlock [1] ∧
    s.Balanced := by
  have hrun : ((stopping.take 15).foldlM State.exec (two.setPlace 0 (.committer .checkWaiters []))).map (·.place 0) =
      some (.committer .globalUnlock [1]) := by
    decide +kernel
  have hall : ∀ a ∈ stopping.take 15, a = .go 0 ∨ a = .deliver 1 ∨ a = .handle 1 := by decide
  obtain ⟨s, hs, hplace⟩ := Option.map_eq_some_iff.mp hrun
  have hend : Reachable (system.restrict notified) (two.setPlace 0 (.committer .checkWaiters [])) :=
    .step (.epochEnd 0) (.init two_began) ⟨two_began.place_ne, rfl⟩
  have hreach : Reachable (system.restrict notified) s := by
    refine .of_foldlM (fun s a _ ha h => ⟨?_, h⟩) hend hs
    rcases hall a ha with rfl | rfl | rfl <;> trivial
  exact ⟨s, hreach, hplace, waiters_balanced hreach⟩

/-- Thread 0 commits, and its wait in `global_epochBegin` ends before thread 1 has left. -/
def spuriousBegin : List Act := stopping ++ [.outcome 0 false] ++ List.replicate 7 (.go 0) ++ [.spurious 0, .go 0, .go 0]

theorem waiters_left_over : ¬ ∀ s, Reachable (system.restrict lone) s → s.Balanced := by
  intro h
  have hrun : (spuriousBegin.foldlM State.exec (two.setPlace 0 (.committer .checkWaiters []))).map
      (fun s => (s.place 0, s.waiters)) = some (.committer .backup [1], 1) := by
    decide +kernel
  have hall : ∀ a ∈ spuriousBegin, a.application = none := by decide
  obtain ⟨s, hs, heq⟩ := Option.map_eq_some_iff.mp hrun
  simp only [Prod.mk.injEq] at heq
  have hreach : Reachable (system.restrict lone) s :=
    .of_foldlM (fun _ _ _ ha h => ⟨lone_of_application (hall _ ha), h⟩) reachable_epochEnd hs
  have hzero := (h s hreach).epochBegin 0 [1] heq.1
  rw [heq.2] at hzero
  cases hzero

end State

end Commit

end DoubleTake
