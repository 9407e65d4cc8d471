import Mathlib.Data.List.Nodup
import Mathlib.Data.List.Range
import Mathlib.Data.List.Perm.Subperm
import Mathlib.Data.List.Count
import DoubleTake.ThreadInfo

/-! The slots of the thread table. `_aliveThreads` counts the slots that are taken and the alive threads; `_reapableThreads`
    counts the joined threads as long as nobody is cancelled, and they are reaped in time as long as the join that makes
    them too many leaves one thread alone. -/

namespace DoubleTake

open Transition

namespace ThreadInfo

variable {s s' : State} {t : Nat}

/-- The joined threads that are still to be reaped. -/
def threads (vs : List DeferSyncVariable) : List Nat := (vs.filter (·.syncVarType = .thread)).map (·.ptr)

theorem threads_append (vs : List DeferSyncVariable) (v : DeferSyncVariable) :
    threads (vs ++ [v]) = threads vs ++ if v.syncVarType = .thread then [v.ptr] else [] := by
  rw [threads, List.filter_append, List.map_append, threads]
  by_cases h : v.syncVarType = .thread <;> simp [h]

theorem mem_threads {vs : List DeferSyncVariable} : t ∈ threads vs ↔ ⟨.thread, t⟩ ∈ vs := by
  simp only [threads, List.mem_map, List.mem_filter, decide_eq_true_eq]
  constructor
  · rintro ⟨⟨type, ptr⟩, ⟨hv, rfl⟩, rfl⟩
    exact hv
  · intro hv
    exact ⟨_, ⟨hv, rfl⟩, rfl⟩

theorem length_threads (vs : List DeferSyncVariable) : (threads vs).length = vs.countP (·.syncVarType = .thread) := by
  rw [threads, List.length_map, List.countP_eq_length_filter]

/-! ### The slots -/

/-- The slots that are taken are those of the alive threads. -/
structure Slots (s : State) : Prop where
  totalThreads : s.totalThreads = MAX_ALIVE_THREADS
  threadIndex : s.threadIndex < s.totalThreads
  nodup : s.alive.Nodup
  taken : ∀ t, t ∈ s.alive ↔ t < s.totalThreads ∧ s.available t = false
  aliveThreads : s.aliveThreads = s.alive.length

theorem Slots.pos (h : Slots s) : 0 < s.totalThreads := by
  rw [h.totalThreads]
  decide

theorem Slots.subset (h : Slots s) : s.alive ⊆ List.range s.totalThreads := by
  intro t ht
  exact List.mem_range.mpr ((h.taken t).mp ht).1

theorem Slots.length_le (h : Slots s) : s.alive.length ≤ s.totalThreads := by
  have hle := (h.nodup.subperm h.subset).length_le
  rwa [List.length_range] at hle

/-- `_aliveThreads` is full when no slot is left. -/
theorem Slots.full_iff (h : Slots s) : s.aliveThreads ≥ s.totalThreads ↔ ∀ t, t < s.totalThreads → s.available t = false := by
  have hle := h.length_le
  rw [h.aliveThreads]
  constructor
  · intro hge t ht
    have hperm := (h.nodup.subperm h.subset).perm_of_length_le (by rw [List.length_range]; omega)
    exact ((h.taken t).mp (hperm.mem_iff.mpr (List.mem_range.mpr ht))).2
  · intro hall
    have hsub : List.range s.totalThreads ⊆ s.alive := by
      intro t ht
      have ht := List.mem_range.mp ht
      exact (h.taken t).mpr ⟨ht, hall t ht⟩
    have hge := (List.nodup_range.subperm hsub).length_le
    rw [List.length_range] at hge
    omega

theorem Slots.count (h : Slots s) : (s.alive.length : Nat) = (List.range s.totalThreads).countP fun t => !s.available t := by
  rw [List.countP_eq_length_filter]
  refine List.Perm.length_eq ((List.perm_ext_iff_of_nodup h.nodup (List.nodup_range.filter _)).mpr fun t => ?_)
  rw [h.taken, List.mem_filter, List.mem_range]
  simp

/-- From `j` rounds on the loop finds a slot, when there is one that it has not passed. -/
theorem allocLoop_eq {origindex rounds j : Nat} (horig : origindex < s.totalThreads) (hj : j + rounds = s.totalThreads)
    (hidx : s.threadIndex = (origindex + j) % s.totalThreads)
    (hfree : ∃ d, j ≤ d ∧ d < s.totalThreads ∧ s.available ((origindex + d) % s.totalThreads) = true) :
    ∃ i, State.allocLoop origindex rounds s = some (i, { s with threadIndex := i }.takeSlot) ∧ i < s.totalThreads ∧
      s.available i = true := by
  induction rounds generalizing s j with
  | zero =>
    obtain ⟨d, hjd, hd, -⟩ := hfree
    omega
  | succ rounds ih =>
    rw [State.allocLoop]
    split
    · rename_i hav
      refine ⟨s.threadIndex, rfl, ?_, hav⟩
      rw [hidx]
      exact Nat.mod_lt _ (by omega)
    · rename_i hav
      obtain ⟨d, hjd, hd, hfree⟩ := hfree
      have hne : d ≠ j := by
        rintro rfl
        rw [hidx] at hav
        exact hav hfree
      have hnext : (s.threadIndex + 1) % s.totalThreads = (origindex + (j + 1)) % s.totalThreads := by
        rw [hidx, Nat.mod_add_mod, Nat.add_assoc]
      -- the index is not back yet, the slot is still to come
      have hback : s.nextIndex.threadIndex ≠ origindex := by
        show (s.threadIndex + 1) % s.totalThreads ≠ origindex
        rw [hnext]
        intro heq
        rcases Nat.lt_or_ge (origindex + (j + 1)) s.totalThreads with hlt | hge
        · rw [Nat.mod_eq_of_lt hlt] at heq
          omega
        · rw [Nat.mod_eq_sub_mod hge, Nat.mod_eq_of_lt (by omega)] at heq
          omega
      rw [if_neg hback]
      exact ih (s := s.nextIndex) horig (by show j + 1 + rounds = s.totalThreads; omega) hnext ⟨d, by omega, hd, hfree⟩

/-- `allocThreadIndex` gives an available slot, unless all are taken. -/
theorem Slots.alloc (h : Slots s) : (∀ t, t < s.totalThreads → s.available t = false) ∧ s.allocThreadIndex = some (-1, s) ∨
    ∃ i : Nat, s.allocThreadIndex = some ((i : Int), { s with threadIndex := i }.takeSlot) ∧ i < s.totalThreads ∧
      s.available i = true := by
  rw [State.allocThreadIndex]
  split
  · rename_i hfull
    exact .inl ⟨h.full_iff.mp hfull, rfl⟩
  · rename_i hfull
    refine .inr ?_
    rw [h.full_iff] at hfull
    push Not at hfull
    obtain ⟨k, hk, hav⟩ := hfull
    have hidx := h.threadIndex
    -- the slot stands `d` rounds after the index
    have hfree : ∃ d, 0 ≤ d ∧ d < s.totalThreads ∧ s.available ((s.threadIndex + d) % s.totalThreads) = true := by
      refine ⟨(k + s.totalThreads - s.threadIndex) % s.totalThreads, Nat.zero_le _, Nat.mod_lt _ h.pos, ?_⟩
      rw [Nat.add_mod_mod, show s.threadIndex + (k + s.totalThreads - s.threadIndex) = k + s.totalThreads by omega,
        Nat.add_mod_right, Nat.mod_eq_of_lt hk]
      simpa using hav
    obtain ⟨i, hloop, hi, hav⟩ := allocLoop_eq hidx (Nat.zero_add _) (by rw [Nat.add_zero, Nat.mod_eq_of_lt hidx]) hfree
    exact ⟨i, by rw [hloop]; rfl, hi, hav⟩

theorem Slots.create (h : Slots s) (hs : s.threadCreate = some s') : Slots s' ∧ s'.deferSyncs = s.deferSyncs ∧
    s'.reapableThreads = s.reapableThreads ∧ s'.alive.length = s.alive.length + 1 := by
  rw [State.threadCreate] at hs
  rcases h.alloc with ⟨-, halloc⟩ | ⟨i, halloc, hi, hav⟩
  · rw [halloc] at hs
    cases hs
  · rw [halloc] at hs
    dsimp only at hs
    rw [if_neg (by omega)] at hs
    cases hs
    have hnot : i ∉ s.alive := by
      rw [h.taken, hav]
      exact fun hand => nomatch hand.2
    refine ⟨⟨h.totalThreads, Nat.mod_lt _ h.pos, ?_, fun t => ?_, ?_⟩, rfl, rfl, List.length_append⟩
    · exact List.nodup_append.mpr ⟨h.nodup, List.nodup_singleton i, by
        rintro a ha b hb rfl
        rw [List.mem_singleton.mp hb] at ha
        exact hnot ha⟩
    · show t ∈ s.alive ++ [i] ↔ t < s.totalThreads ∧ Function.update s.available i false t = false
      rw [List.mem_append, h.taken, List.mem_singleton]
      by_cases ht : t = i
      · subst ht
        rw [Function.update_self]
        exact ⟨fun _ => ⟨hi, rfl⟩, fun _ => .inr rfl⟩
      · rw [Function.update_of_ne ht]
        exact or_iff_left ht
    · show s.aliveThreads + 1 = ((s.alive ++ [i]).length : Nat)
      rw [h.aliveThreads, List.length_append, List.length_singleton]
      omega

theorem Slots.reap (h : Slots s) (ht : t ∈ s.alive) : ∃ s', s.reap t = some s' ∧ Slots s' ∧ s'.alive = s.alive.erase t ∧
    s'.deferSyncs = s.deferSyncs ∧ s'.reapableThreads = s.reapableThreads - 1 := by
  rw [State.reap, State.removeAliveThread, if_pos ht]
  refine ⟨_, rfl, ⟨h.totalThreads, h.threadIndex, h.nodup.erase t, fun u => ?_, ?_⟩, rfl, rfl, rfl⟩
  · show u ∈ s.alive.erase t ↔ u < s.totalThreads ∧ Function.update s.available t true u = false
    rw [h.nodup.mem_erase_iff, h.taken]
    by_cases hu : u = t
    · subst hu
      rw [Function.update_self]
      exact ⟨fun hand => absurd rfl hand.1, fun hand => nomatch hand.2⟩
    · rw [Function.update_of_ne hu]
      exact and_iff_right hu
  · show s.aliveThreads - 1 = ((s.alive.erase t).length : Nat)
    have hpos := List.length_pos_of_mem ht
    rw [h.aliveThreads, List.length_erase_of_mem ht]
    omega

theorem Slots.deferSync (h : Slots s) (ptr : Nat) (type : SyncVariableType) : Slots (s.deferSync ptr type).2 := by
  rw [State.deferSync]
  split <;> exact ⟨h.totalThreads, h.threadIndex, h.nodup, h.taken, h.aliveThreads⟩

/-- The joined threads are alive, each of them once on the list. -/
structure Joined (s : State) : Prop extends Slots s where
  joined_nodup : (threads s.deferSyncs).Nodup
  joined_alive : ∀ t ∈ threads s.deferSyncs, t ∈ s.alive

theorem foldlM_runDeferredSync (vs : List DeferSyncVariable) (h : Slots s) (hnodup : (threads vs).Nodup)
    (halive : ∀ t ∈ threads vs, t ∈ s.alive) : ∃ s', vs.foldlM State.runDeferredSync s = some s' ∧ Slots s' ∧
      s'.deferSyncs = s.deferSyncs ∧ s'.reapableThreads = s.reapableThreads - (threads vs).length ∧
      s'.alive.length + (threads vs).length = s.alive.length := by
  induction vs generalizing s with
  | nil => exact ⟨s, rfl, h, rfl, by simp [threads], rfl⟩
  | cons v vs ih =>
    obtain ⟨type, ptr⟩ := v
    rw [List.foldlM_cons, State.runDeferredSync]
    cases type with
    | thread =>
      have hcons : threads (⟨.thread, ptr⟩ :: vs) = ptr :: threads vs := rfl
      rw [hcons] at hnodup halive ⊢
      obtain ⟨hnot, hnodup⟩ := List.nodup_cons.mp hnodup
      obtain ⟨s₁, hreap, h₁, halive₁, hdefer₁, hreapable₁⟩ := h.reap (halive ptr List.mem_cons_self)
      have hstill : ∀ t ∈ threads vs, t ∈ s₁.alive := by
        intro t ht
        rw [halive₁, h.nodup.mem_erase_iff]
        refine ⟨?_, halive t (List.mem_cons_of_mem _ ht)⟩
        rintro rfl
        exact hnot ht
      obtain ⟨s', hrun, h', hdefer, hreapable, hlen⟩ := ih h₁ hnodup hstill
      have herase : s₁.alive.length + 1 = s.alive.length := by
        rw [halive₁, List.length_erase_of_mem (halive ptr List.mem_cons_self)]
        have := List.length_pos_of_mem (halive ptr List.mem_cons_self)
        omega
      refine ⟨s', ?_, h', hdefer.trans hdefer₁, ?_, ?_⟩
      · dsimp only
        rw [hreap]
        exact hrun
      · rw [hreapable, hreapable₁, List.length_cons]
        omega
      · rw [List.length_cons]
        omega
    | cond | mutex | barrier => exact ih h hnodup halive

/-- A commit reaps the joined threads. -/
theorem Joined.runDeferredSyncs (h : Joined s) : ∃ s', s.runDeferredSyncs = some s' ∧ Joined s' ∧ s'.deferSyncs = [] ∧
    s'.reapableThreads = s.reapableThreads - (threads s.deferSyncs).length ∧
    s'.alive.length + (threads s.deferSyncs).length = s.alive.length := by
  have h₀ : Slots { s with deferSyncs := [] } := ⟨h.totalThreads, h.threadIndex, h.nodup, h.taken, h.aliveThreads⟩
  obtain ⟨s', hrun, h', hdefer, hreapable, hlen⟩ := foldlM_runDeferredSync s.deferSyncs h₀ h.joined_nodup h.joined_alive
  have hnil : s'.deferSyncs = [] := hdefer
  refine ⟨s', hrun, ⟨h', ?_, ?_⟩, hnil, hreapable, hlen⟩
  · rw [hnil]
    exact .nil
  · rw [hnil]
    exact nofun

theorem Joined.create (h : Joined s) (hs : s.threadCreate = some s') : Joined s' ∧ s'.deferSyncs = s.deferSyncs ∧
    s'.reapableThreads = s.reapableThreads ∧ s'.alive.length = s.alive.length + 1 := by
  obtain ⟨h', hdefer, hreapable, hlen⟩ := h.toSlots.create hs
  refine ⟨⟨h', ?_, fun t ht => ?_⟩, hdefer, hreapable, hlen⟩
  · rw [hdefer]
    exact h.joined_nodup
  · rw [hdefer] at ht
    have hold := h.joined_alive t ht
    rw [State.threadCreate] at hs
    rcases h.alloc with ⟨-, halloc⟩ | ⟨i, halloc, -, -⟩
    · rw [halloc] at hs
      cases hs
    · rw [halloc] at hs
      dsimp only at hs
      rw [if_neg (by omega)] at hs
      cases hs
      exact List.mem_append_left _ hold

theorem unjoined_iff : s.unjoined t = true ↔ t ∈ s.alive ∧ t ∉ threads s.deferSyncs := by
  rw [State.unjoined, Bool.and_eq_true, decide_eq_true_eq, decide_eq_true_eq, mem_threads]

theorem deferSync_thread (s : State) (t : Nat) : (s.deferSync t .thread).2.deferSyncs = s.deferSyncs ++ [⟨.thread, t⟩] ∧
    (s.deferSync t .thread).2.reapableThreads = s.reapableThreads + 1 ∧ (s.deferSync t .thread).2.alive = s.alive ∧
    (s.deferSync t .thread).2.aliveThreads = s.aliveThreads := ⟨rfl, rfl, rfl, rfl⟩

theorem Joined.join (h : Joined s) (ht : s.unjoined t = true) : Joined (s.deferSync t .thread).2 := by
  obtain ⟨hin, hnot⟩ := unjoined_iff.mp ht
  have hthreads : threads (s.deferSync t .thread).2.deferSyncs = threads s.deferSyncs ++ [t] := threads_append _ _
  refine ⟨h.toSlots.deferSync t .thread, ?_, ?_⟩
  · rw [hthreads]
    refine List.nodup_append.mpr ⟨h.joined_nodup, List.nodup_singleton t, ?_⟩
    rintro a ha b hb rfl
    rw [List.mem_singleton.mp hb] at ha
    exact hnot ha
  · rw [hthreads]
    intro u hu
    rcases List.mem_append.mp hu with hu | hu
    · exact h.joined_alive u hu
    · rw [List.mem_singleton.mp hu]
      exact hin

theorem Joined.initialized : Joined initialized := by
  refine ⟨⟨rfl, by decide, .nil, fun t => ?_, rfl⟩, .nil, nofun⟩
  exact ⟨nofun, fun hand => nomatch hand.2⟩

/-! ### The accounts -/

/-- What the counters of a state stand for, and that a slot is found. -/
structure Accounts (s : State) : Prop where
  slots : s.aliveThreads = (List.range s.totalThreads).countP fun t => !s.available t
  alive : s.aliveThreads = s.alive.length
  reapable : s.reapableThreads = s.deferSyncs.countP (·.syncVarType = .thread)
  nonneg : 0 ≤ s.reapableThreads
  alloc : ∃ i s', s.allocThreadIndex = some (i, s') ∧ (i = -1 ↔ ∀ t, t < s.totalThreads → s.available t = false) ∧
    (i ≠ -1 → ∃ t, t < s.totalThreads ∧ i = t ∧ s.available t = true)

def Act.isCancel : Act → Bool
  | .cancel _ => true
  | .create | .join _ | .destroy _ _ | .runDeferredSyncs => false

/-- After `n` cancellations. -/
structure Cancelled (n : Nat) (s : State) : Prop extends Joined s where
  reapable : s.reapableThreads = (threads s.deferSyncs).length - n

theorem Cancelled.exec {n : Nat} {a : Act} (h : Cancelled n s) (hs : s.exec a = some s') :
    Cancelled (if a.isCancel then n + 1 else n) s' := by
  have hr := h.reapable
  cases a with
  | create =>
    obtain ⟨h', hdefer, hreapable, -⟩ := h.toJoined.create hs
    exact ⟨h', by rw [hdefer, hreapable]; exact hr⟩
  | join t =>
    rw [State.exec] at hs
    split at hs
    · rename_i ht
      cases hs
      refine ⟨h.toJoined.join ht, ?_⟩
      show s.reapableThreads + 1 = ((threads (s.deferSyncs ++ [⟨.thread, t⟩])).length : Nat) - (n : Int)
      rw [threads_append, List.length_append, hr]
      simp
      omega
    · cases hs
  | destroy ptr type =>
    rw [State.exec] at hs
    split at hs
    · rename_i htype
      cases hs
      have hthreads : threads (s.deferSync ptr type).2.deferSyncs = threads s.deferSyncs := by
        rw [State.deferSync, if_neg htype]
        dsimp only
        rw [threads_append, if_neg htype, List.append_nil]
      have hsame : (s.deferSync ptr type).2.reapableThreads = s.reapableThreads ∧
          (s.deferSync ptr type).2.alive = s.alive := by
        rw [State.deferSync, if_neg htype]
        exact ⟨rfl, rfl⟩
      refine ⟨⟨h.toSlots.deferSync ptr type, ?_, ?_⟩, ?_⟩
      · rw [hthreads]
        exact h.joined_nodup
      · rw [hthreads, hsame.2]
        exact h.joined_alive
      · rw [hthreads, hsame.1]
        exact hr
    · cases hs
  | cancel t =>
    rw [State.exec] at hs
    split at hs
    · rename_i ht
      obtain ⟨hin, hnot⟩ := unjoined_iff.mp ht
      obtain ⟨s₁, hreap, h₁, halive, hdefer, hreapable⟩ := h.toSlots.reap hin
      obtain rfl : s₁ = s' := Option.some.inj (hreap.symm.trans hs)
      refine ⟨⟨h₁, ?_, fun u hu => ?_⟩, ?_⟩
      · rw [hdefer]
        exact h.joined_nodup
      · rw [hdefer] at hu
        rw [halive, h.nodup.mem_erase_iff]
        refine ⟨?_, h.joined_alive u hu⟩
        rintro rfl
        exact hnot hu
      · rw [hdefer, hreapable, hr]
        show _ = ((threads s.deferSyncs).length : Int) - ((n + 1 : Nat) : Int)
        omega
    · cases hs
  | runDeferredSyncs =>
    obtain ⟨s₁, hrun, h₁, hdefer, hreapable, -⟩ := h.toJoined.runDeferredSyncs
    obtain rfl : s₁ = s' := Option.some.inj (hrun.symm.trans hs)
    refine ⟨h₁, ?_⟩
    rw [hdefer, hreapable, hr]
    show _ = ((0 : Nat) : Int) - (n : Int)
    omega

theorem Cancelled.steps {n : Nat} {acts : List Act} (h : Cancelled n s) (hs : Steps system s acts s') :
    Cancelled (n + acts.countP Act.isCancel) s' := by
  induction hs generalizing n with
  | nil => exact h
  | @cons s t u a acts hstep _ ih =>
    have hnext := ih (h.exec hstep)
    rw [List.countP_cons]
    split at hnext
    · rename_i ha
      rw [if_pos ha]
      rwa [Nat.add_right_comm, Nat.add_assoc] at hnext
    · rename_i ha
      rw [if_neg ha]
      exact hnext

theorem Cancelled.iff_zero {n : Nat} (h : Cancelled n s) : Accounts s ↔ n = 0 := by
  have hr := h.reapable
  rw [length_threads] at hr
  constructor
  · intro hacc
    have := hacc.reapable
    omega
  · rintro rfl
    refine ⟨?_, h.aliveThreads, by omega, by omega, ?_⟩
    · rw [h.aliveThreads, h.count]
    · rcases h.alloc with ⟨hfull, halloc⟩ | ⟨i, halloc, hi, hav⟩
      · exact ⟨_, _, halloc, ⟨fun _ => hfull, fun _ => rfl⟩, fun hne => absurd rfl hne⟩
      · refine ⟨_, _, halloc, ⟨fun heq => by omega, fun hfull => ?_⟩, fun _ => ⟨i, hi, rfl, hav⟩⟩
        rw [hfull i hi] at hav
        cases hav

/-- The accounts are right after a run exactly when nobody was cancelled in it. -/
theorem accounts_iff {acts : List Act} (hs : Steps system initialized acts s) :
    Accounts s ↔ ∀ t, .cancel t ∉ acts := by
  have h₀ : Cancelled 0 initialized := ⟨.initialized, rfl⟩
  have h := h₀.steps hs
  rw [Nat.zero_add] at h
  rw [h.iff_zero, List.countP_eq_zero]
  constructor
  · intro hnone t ht
    exact hnone _ ht rfl
  · rintro hnone (_ | t | ⟨ptr, type⟩ | t | _) ha
    · nofun
    · nofun
    · nofun
    · exact absurd ha (hnone t)
    · nofun

/-- Two threads are there, and the second one has been joined and reaped. -/
theorem accounts_two : ∃ s, Steps system initialized [.create, .create, .join 1, .runDeferredSyncs] s ∧
    s.alive = [0] ∧ Accounts s := by
  have hrun : (([.create, .create, .join 1, .runDeferredSyncs] : List Act).foldlM State.exec initialized).map (·.alive) =
      some [0] := by decide +kernel
  obtain ⟨s, hs, halive⟩ := Option.map_eq_some_iff.mp hrun
  have hsteps : Steps system initialized [.create, .create, .join 1, .runDeferredSyncs] s := .of_foldlM (fun _ _ _ h => h) hs
  exact ⟨s, hsteps, halive, (accounts_iff hsteps).mpr (by simp)⟩

/-- The second of two threads is cancelled. -/
theorem cancel_reapable : ¬ ∀ acts s, Steps system initialized acts s → Accounts s := by
  intro h
  have hrun : (([.create, .create, .cancel 1] : List Act).foldlM State.exec initialized).map (·.reapableThreads) =
      some (-1) := by decide +kernel
  obtain ⟨s, hs, hreapable⟩ := Option.map_eq_some_iff.mp hrun
  have hnonneg := (h _ s (.of_foldlM (fun _ _ _ h => h) hs)).nonneg
  rw [hreapable] at hnonneg
  exact absurd hnonneg (by decide)

/-! ### The joined threads are reaped in time -/

theorem Joined.unjoinedThreads (h : Joined s) : s.unjoinedThreads + (threads s.deferSyncs).length = s.alive.length := by
  have hcount : s.alive.countP (fun t => decide (t ∈ threads s.deferSyncs)) = (threads s.deferSyncs).length := by
    rw [List.countP_eq_length_filter]
    refine List.Perm.length_eq ((List.perm_ext_iff_of_nodup (h.nodup.filter _) h.joined_nodup).mpr fun t => ?_)
    rw [List.mem_filter, decide_eq_true_eq]
    exact and_iff_right_of_imp (h.joined_alive t)
  rw [← hcount, State.unjoinedThreads, List.length_eq_countP_add_countP s.unjoined]
  congr 1
  refine List.countP_congr fun t ht => ?_
  rw [decide_eq_true_eq, decide_eq_true_eq, unjoined_iff]
  simp [ht]

/-- A thread can be created while there are not too many, and the join that made the joined threads too many has had them
    reaped. -/
structure InTime (s : State) : Prop where
  slot : s.unjoinedThreads < MAX_ALIVE_THREADS - MAX_REAPABLE_THREADS → ∃ i s', s.allocThreadIndex = some (i, s') ∧ i ≠ -1
  reaped : s.reapableThreads < MAX_REAPABLE_THREADS

/-- At most `MAX_ALIVE_THREADS - MAX_REAPABLE_THREADS` threads are alive and not joined. -/
def few (s : State) : Call → Prop
  | .threadCreate => s.unjoinedThreads < MAX_ALIVE_THREADS - MAX_REAPABLE_THREADS
  | .threadJoin _ => True

/-- When there are `MAX_REAPABLE_THREADS` joined threads, the caller is the only thread left. -/
def leavesOne (s : State) : Call → Prop
  | .threadCreate => True
  | .threadJoin _ => s.reapableThreads + 1 ≥ MAX_REAPABLE_THREADS → s.unjoinedThreads = 2

/-- What holds between the calls. -/
structure Reaping (s : State) : Prop extends Joined s where
  reapable : s.reapableThreads = (threads s.deferSyncs).length
  few : s.unjoinedThreads ≤ MAX_ALIVE_THREADS - MAX_REAPABLE_THREADS
  reaped : s.reapableThreads < MAX_REAPABLE_THREADS

theorem Reaping.inTime (h : Reaping s) : InTime s := by
  refine ⟨fun _ => ?_, h.reaped⟩
  rcases h.alloc with ⟨hfull, -⟩ | ⟨i, halloc, -⟩
  · -- the slots are not all taken
    have hge := h.toSlots.full_iff.mpr hfull
    have hcount := h.toJoined.unjoinedThreads
    have hreaped := h.reaped
    have hfew := h.few
    rw [h.aliveThreads, h.totalThreads] at hge
    rw [h.reapable] at hreaped
    have hmax : MAX_ALIVE_THREADS = 128 := rfl
    have hmax' : MAX_REAPABLE_THREADS = 118 := rfl
    omega
  · exact ⟨i, _, halloc, by omega⟩

theorem Reaping.call {c : Call} (h : Reaping s) (hfew : ThreadInfo.few s c) (hone : leavesOne s c) (hs : s.call c = some s') :
    Reaping s' := by
  have hmax : MAX_ALIVE_THREADS = 128 := rfl
  have hmax' : MAX_REAPABLE_THREADS = 118 := rfl
  have hcount := h.toJoined.unjoinedThreads
  have hr := h.reapable
  have hreaped := h.reaped
  have hle := h.few
  cases c with
  | threadCreate =>
    obtain ⟨h', hdefer, hreapable, hlen⟩ := h.toJoined.create hs
    have hcount' := h'.unjoinedThreads
    have hfew : s.unjoinedThreads < MAX_ALIVE_THREADS - MAX_REAPABLE_THREADS := hfew
    rw [hdefer] at hcount'
    refine ⟨h', ?_, by omega, by omega⟩
    rw [hdefer, hreapable]
    exact hr
  | threadJoin t =>
    have hs : (if s.unjoined t then s.threadJoin t else none) = some s' := hs
    split at hs
    · rename_i ht
      have h₁ := h.toJoined.join ht
      obtain ⟨hdefer, hreapable, halive, haliveThreads⟩ := deferSync_thread s t
      have hthreads : (threads (s.deferSync t .thread).2.deferSyncs).length = (threads s.deferSyncs).length + 1 := by
        rw [hdefer, threads_append]
        exact List.length_append
      have hcount₁ := h₁.unjoinedThreads
      rw [State.threadJoin] at hs
      split at hs
      · rename_i s₁ heq
        obtain rfl : (s.deferSync t .thread).2 = s₁ := congrArg Prod.snd heq
        obtain ⟨s₂, hrun, h₂, hdefer₂, hreapable₂, hlen₂⟩ := h₁.runDeferredSyncs
        obtain rfl : s₂ = s' := Option.some.inj (hrun.symm.trans hs)
        have hcount₂ := h₂.unjoinedThreads
        have hnil : (threads s₂.deferSyncs).length = 0 := by rw [hdefer₂]; rfl
        refine ⟨h₂, by omega, ?_, by omega⟩
        rw [halive] at hlen₂ hcount₁
        omega
      · rename_i s₁ heq
        obtain rfl : (s.deferSync t .thread).2 = s₁ := congrArg Prod.snd heq
        have hflag : (s.deferSync t .thread).1 = false := congrArg Prod.fst heq
        cases hs
        refine ⟨h₁, by omega, ?_, ?_⟩
        · rw [halive] at hcount₁
          omega
        · -- otherwise this join would have had them reaped
          by_contra hge
          have hone : s.unjoinedThreads = 2 := hone (by omega)
          have hlt : (decide ((s.deferSync t .thread).2.reapableThreads ≥ (MAX_REAPABLE_THREADS : Int)) &&
              (s.deferSync t .thread).2.aliveThreads - (s.deferSync t .thread).2.reapableThreads == 1) = false := hflag
          rw [Bool.and_eq_false_iff, decide_eq_false_iff_not, beq_eq_false_iff_ne, haliveThreads, hreapable,
            h.aliveThreads] at hlt
          omega
    · cases hs

theorem Reaping.of_init (hs : initialized.threadCreate = some s) : Reaping s := by
  have hmax : MAX_ALIVE_THREADS = 128 := rfl
  have hmax' : MAX_REAPABLE_THREADS = 118 := rfl
  obtain ⟨h, hdefer, hreapable, hlen⟩ := Joined.initialized.create hs
  have hcount := h.unjoinedThreads
  have hnil : (threads s.deferSyncs).length = 0 := by rw [hdefer]; rfl
  have hone : s.alive.length = 1 := hlen
  have hzero : s.reapableThreads = 0 := hreapable
  exact ⟨h, by omega, by omega, by omega⟩

/-- In every run of creates and joins with few threads, in which the joins that make the joined threads too many leave one
    thread, every create finds a slot. -/
theorem reaped_in_time (h : Reachable (calls.restrict fun s c => few s c ∧ leavesOne s c) s) : InTime s := by
  have hreaping : Reaping s := by
    refine Reachable.invariant (S := calls.restrict fun s c => few s c ∧ leavesOne s c) (P := Reaping) ?_ ?_ h
    · exact fun s hs => .of_init hs
    · rintro s c s' hs ⟨⟨hfew, hone⟩, hstep⟩
      exact hs.call hfew hone hstep
  exact hreaping.inTime

/-- The first thread creates another one and joins it. -/
theorem reaped_in_time_two : ∃ s, Reachable (calls.restrict fun s c => few s c ∧ leavesOne s c) s ∧
    s.alive = [0, 1] ∧ InTime s := by
  have hfirst : initialized.threadCreate = some ((initialized.takeSlot).insertAliveThread 0) := rfl
  have hcreate : few ((initialized.takeSlot).insertAliveThread 0) .threadCreate := by
    show State.unjoinedThreads _ < _
    decide
  obtain ⟨s, hs, halive⟩ := Option.map_eq_some_iff.mp (show
    (((initialized.takeSlot).insertAliveThread 0).call .threadCreate).map (·.alive) = some [0, 1] by decide +kernel)
  have hreach : Reachable (calls.restrict fun s c => few s c ∧ leavesOne s c) s :=
    .step .threadCreate (.init hfirst) ⟨⟨hcreate, trivial⟩, hs⟩
  exact ⟨s, hreach, halive, reaped_in_time hreach⟩

/-- Thread 1 goes on while `k` others have been created and joined. -/
def besides (k : Nat) : State where
  aliveThreads := k + 2
  reapableThreads := k
  totalThreads := MAX_ALIVE_THREADS
  threadIndex := (k + 2) % MAX_ALIVE_THREADS
  deferSyncs := (List.range k).map fun i => ⟨.thread, i + 2⟩
  available := fun t => decide (k + 2 ≤ t)
  alive := List.range (k + 2)

theorem besides_joined {k : Nat} (hk : k + 2 ≤ MAX_ALIVE_THREADS) : Joined (besides k) := by
  have hthreads : threads (besides k).deferSyncs = (List.range k).map (· + 2) := by
    rw [threads, List.filter_eq_self.mpr]
    · simp [besides]
    · intro v hv
      obtain ⟨i, -, rfl⟩ := List.mem_map.mp hv
      rfl
  refine ⟨⟨rfl, Nat.mod_lt _ (by decide), List.nodup_range, fun t => ?_, ?_⟩, ?_, fun t ht => ?_⟩
  · show t ∈ List.range (k + 2) ↔ t < MAX_ALIVE_THREADS ∧ decide (k + 2 ≤ t) = false
    rw [List.mem_range, decide_eq_false_iff_not]
    omega
  · show ((k : Int) + 2) = ((List.range (k + 2)).length : Nat)
    rw [List.length_range]
    omega
  · rw [hthreads]
    exact List.nodup_range.map fun a b hab => by simpa using hab
  · rw [hthreads] at ht
    obtain ⟨i, hi, rfl⟩ := List.mem_map.mp ht
    have hi := List.mem_range.mp hi
    exact List.mem_range.mpr (by omega)

theorem besides_unjoined {k : Nat} (hk : k + 2 ≤ MAX_ALIVE_THREADS) : (besides k).unjoinedThreads = 2 := by
  have hcount := (besides_joined hk).unjoinedThreads
  have halive : (besides k).alive.length = k + 2 := List.length_range
  have hthreads : (threads (besides k).deferSyncs).length = k := by
    rw [length_threads, List.countP_eq_length.mpr]
    · simp [besides]
    · intro v hv
      obtain ⟨i, -, rfl⟩ := List.mem_map.mp hv
      rfl
  omega

/-- Another thread is created and joined. -/
theorem besides_next {k : Nat} (hk : k + 3 ≤ MAX_ALIVE_THREADS) : ∃ s, (besides k).threadCreate = some s ∧
    s.call (.threadJoin (k + 2)) = some (besides (k + 1)) := by
  have hmax : MAX_ALIVE_THREADS = 128 := rfl
  have hmod : (k + 2) % MAX_ALIVE_THREADS = k + 2 := Nat.mod_eq_of_lt (by omega)
  have hidx : (besides k).threadIndex = k + 2 := hmod
  have halloc : (besides k).allocThreadIndex = some (((k + 2 : Nat) : Int), (besides k).takeSlot) := by
    have hfree : ¬ (besides k).aliveThreads ≥ (besides k).totalThreads := by
      show ¬ ((k : Int) + 2 ≥ (MAX_ALIVE_THREADS : Nat))
      omega
    rw [State.allocThreadIndex, if_neg hfree]
    show (State.allocLoop _ (127 + 1) _).map _ = _
    have hav : (besides k).available (besides k).threadIndex = true := by
      rw [hidx]
      exact decide_eq_true (Nat.le_refl _)
    rw [State.allocLoop, if_pos hav, hidx]
    rfl
  have hcreate : (besides k).threadCreate = some ((besides k).takeSlot.insertAliveThread (k + 2)) := by
    rw [State.threadCreate, halloc]
    dsimp only
    rw [if_neg (by omega)]
    rfl
  -- two threads are left, so the join does not commit
  have hjoin : ((besides k).takeSlot.insertAliveThread (k + 2)).deferSync (k + 2) .thread = (false, besides (k + 1)) := by
    have hdefer : ((List.range k).map fun i => (⟨.thread, i + 2⟩ : DeferSyncVariable)) ++ [⟨.thread, k + 2⟩] =
        (List.range (k + 1)).map fun i => ⟨.thread, i + 2⟩ := by
      rw [List.range_succ, List.map_append]
      rfl
    have havail : Function.update (fun t => decide (k + 2 ≤ t)) (k + 2) false = fun t => decide (k + 1 + 2 ≤ t) := by
      funext t
      by_cases ht : t = k + 2
      · subst ht
        rw [Function.update_self]
        exact (decide_eq_false (by omega)).symm
      · rw [Function.update_of_ne ht]
        exact decide_eq_decide.mpr (by omega)
    refine Prod.ext ?_ ?_
    · show (decide ((k : Int) + 1 ≥ (MAX_REAPABLE_THREADS : Int)) && (k : Int) + 2 + 1 - ((k : Int) + 1) == 1) = false
      rw [show (k : Int) + 2 + 1 - ((k : Int) + 1) = 2 by omega]
      exact Bool.and_false _
    · show (⟨(k : Int) + 2 + 1, (k : Int) + 1, MAX_ALIVE_THREADS, ((k + 2) % MAX_ALIVE_THREADS + 1) % MAX_ALIVE_THREADS,
        ((List.range k).map fun i => (⟨.thread, i + 2⟩ : DeferSyncVariable)) ++ [⟨.thread, k + 2⟩],
        Function.update (fun t => decide (k + 2 ≤ t)) ((k + 2) % MAX_ALIVE_THREADS) false, List.range (k + 2) ++ [k + 2]⟩ :
          State) = besides (k + 1)
      rw [hmod, hdefer, havail, ← List.range_succ, besides]
      simp only [State.mk.injEq, and_true]
      omega
  have hunjoined : ((besides k).takeSlot.insertAliveThread (k + 2)).unjoined (k + 2) = true := by
    refine unjoined_iff.mpr ⟨List.mem_append_right _ (List.mem_singleton_self _), fun hmem => ?_⟩
    obtain ⟨i, hi, heq⟩ := List.mem_map.mp (mem_threads.mp hmem)
    have hi := List.mem_range.mp hi
    injection heq with _ heq
    omega
  refine ⟨_, hcreate, ?_⟩
  rw [State.call, if_pos hunjoined, State.threadJoin, hjoin]

theorem besides_reachable {k : Nat} (hk : k + 2 ≤ MAX_ALIVE_THREADS) : Reachable (calls.restrict few) (besides k) := by
  have hmax : MAX_ALIVE_THREADS = 128 := rfl
  have hmax' : MAX_REAPABLE_THREADS = 118 := rfl
  induction k with
  | zero =>
    have hfirst : initialized.threadCreate = some ((initialized.takeSlot).insertAliveThread 0) := rfl
    refine .step .threadCreate (.init hfirst) ⟨?_, ?_⟩
    · show State.unjoinedThreads _ < _
      decide
    · have havail : Function.update (Function.update (fun _ : Nat => true) 0 false) 1 false = fun t => decide (0 + 2 ≤ t) := by
        funext t
        rcases t with _ | _ | t
        · rfl
        · rfl
        · exact (decide_eq_true (by omega)).symm
      show some (⟨2, 0, 128, 2, [], Function.update (Function.update (fun _ : Nat => true) 0 false) 1 false, [0, 1]⟩ : State) = _
      rw [havail]
      rfl
  | succ k ih =>
    obtain ⟨s, hcreate, hjoin⟩ := besides_next (k := k) (by omega)
    have hfew : few (besides k) .threadCreate := by
      show (besides k).unjoinedThreads < _
      rw [besides_unjoined (by omega)]
      omega
    exact .step (.threadJoin (k + 2)) (.step .threadCreate (ih (by omega)) ⟨hfew, hcreate⟩) ⟨trivial, hjoin⟩

/-- Thread 1 goes on while 126 others are created and joined: no slot is left, although only two threads run. -/
theorem not_reaped_in_time : ¬ ∀ s, Reachable (calls.restrict few) s → InTime s := by
  intro h
  have hslot := (h (besides 126) (besides_reachable (by decide))).slot
  rw [besides_unjoined (by decide)] at hslot
  obtain ⟨i, s', halloc, hne⟩ := hslot (by decide)
  have hfull : (besides 126).allocThreadIndex = some (-1, besides 126) := rfl
  rw [hfull] at halloc
  cases halloc
  exact hne rfl

end ThreadInfo

end DoubleTake
