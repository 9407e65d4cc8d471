import DoubleTake.Theorems.Recorders

/-! Where the threads of the replay are in the recorded operations: in every state what is left of a thread's calls follows
    the recording, from what the thread holds. -/

namespace DoubleTake

open Transition

namespace Turns

variable {E : Epoch} {a a' : Turns} {e : EventRef} {l l' : SyncVar} {t u p p' : Nat}

/-- The thread holds the turn of the list with the event at this position. -/
def HeldAt (a : Turns) (E : Epoch) (t : Nat) (l : SyncVar) (p : Nat) : Prop :=
  ∃ e, (E.list l)[p]? = some e ∧ p + 1 = a.granted l ∧ e.thread = t ∧ a.place e = .passed

theorem Same.heldAt (h : Same a a') : a'.HeldAt E t l p ↔ a.HeldAt E t l p := by
  simp only [HeldAt, h.granted, h.passed]

theorem heldAt_pass (hE : E.Listed) (he : (E.list l)[p]? = some e) (hp : p + 1 = a.granted l) :
    (a.move e .passed).HeldAt E t l' p' ↔ (e.thread = t ∧ l' = l ∧ p' = p) ∨ a.HeldAt E t l' p' := by
  constructor
  · rintro ⟨e', he', hp', ht, hpass⟩
    by_cases heq : e' = e
    · subst heq
      obtain ⟨rfl, rfl⟩ := hE.unique he' he
      exact .inl ⟨ht, rfl, rfl⟩
    · rw [move_place, if_neg heq] at hpass
      exact .inr ⟨e', he', hp', ht, hpass⟩
  · rintro (⟨ht, rfl, rfl⟩ | ⟨e', he', hp', ht, hpass⟩)
    · exact ⟨e, he, hp, ht, by simp⟩
    · refine ⟨e', he', hp', ht, ?_⟩
      rw [move_place]
      split
      · rfl
      · exact hpass

theorem heldAt_grant {x : Place} (hE : E.Listed) (hx : x ≠ .passed) :
    (a.grant E l x).HeldAt E t l' p ↔ l' ≠ l ∧ a.HeldAt E t l' p := by
  constructor
  · rintro ⟨e, he, hp, ht, hpass⟩
    have hnew : (E.list l)[a.granted l]? ≠ some e := by
      intro he'
      simp [grant, he', hx] at hpass
    have hl : l' ≠ l := by
      rintro rfl
      rw [grant_granted, if_pos rfl] at hp
      obtain rfl : p = a.granted l' := by omega
      exact hnew he
    simp only [grant, if_neg hnew] at hpass
    rw [grant_granted, if_neg hl] at hp
    exact ⟨hl, e, he, hp, ht, hpass⟩
  · rintro ⟨hl, e, he, hp, ht, hpass⟩
    refine ⟨e, he, by rw [grant_granted, if_neg hl, hp], ht, ?_⟩
    have hnew : (E.list l)[a.granted l]? ≠ some e := by
      intro he'
      exact hl (hE.unique he he').1
    simp only [grant, if_neg hnew, hpass]

end Turns

namespace Replay

variable {E : Epoch} {c : Clock} {s s' : Replay} {a a' : Turns} {t u : Nat}

/-- What is left of the calls of a thread follows the recording. -/
def Tracked (E : Epoch) (c : Clock) (s : Replay) (a : Turns) (t : Nat) : Prop :=
  ∃ rem h post h', E.calls t = (s.issued t).map Prod.fst ++ rem ∧
    s.ops t ++ rem.flatMap SyncCall.replay = post ++ E.rest t ∧ (∀ l p, h l = some p ↔ a.HeldAt E t l p) ∧
    Follows E c t h (s.iter t) post h' (E.syncevents t).length ∧ E.Keeps t h'

/-- A step of another thread. -/
theorem Tracked.other (h : Tracked E c s a u) (ho : s'.ops u = s.ops u) (hi : s'.iter u = s.iter u)
    (hs : s'.issued u = s.issued u) (hheld : ∀ l p, a'.HeldAt E u l p ↔ a.HeldAt E u l p) : Tracked E c s' a' u := by
  obtain ⟨rem, h, post, h', hcalls, hops, hh, hf, hk⟩ := h
  refine ⟨rem, h, post, h', ?_, ?_, fun l p => (hh l p).trans (hheld l p).symm, ?_, hk⟩
  · rw [hs]
    exact hcalls
  · rw [ho]
    exact hops
  · rw [hi]
    exact hf

theorem follows_signals {h h' : Hold} {i i' : Nat} {ops : List ReplayOp} (next : List EventRef)
    (hf : Follows E c t h i ops h' i') : Follows E c t h i (next.map .signalNextThread ++ ops) h' i' := by
  induction next with
  | nil => exact hf
  | cons e next ih => exact .signal ih

/-- The event that waits is the current one of its list when it passes. -/
theorem Sim.position (h : Sim E s a) (h' : Sim E s' (a.move (s.firstIterEntry t) .passed)) {l : SyncVar} {p : Nat}
    (hw : stage (s.ops t) = .waiting) (hpos : (E.list l)[p]? = some (s.firstIterEntry t)) : p + 1 = a.granted l := by
  have hpassed : (a.move (s.firstIterEntry t) .passed).place (s.firstIterEntry t) = .passed := by simp
  rcases Nat.lt_trichotomy (p + 1) (a.granted l) with hlt | heq | hgt
  · obtain ⟨-, hb⟩ := (h.passed _).mp (h.inOrder.before l p _ hpos hlt)
    rcases hb with hlt' | ⟨-, hpast⟩
    · exact absurd hlt' (Nat.lt_irrefl _)
    · have hpast : stage (s.ops t) = .past := hpast
      rw [hw] at hpast
      cases hpast
  · exact heq
  · have hidle := h'.inOrder.after l p _ hpos (by rw [Turns.move_granted]; omega)
    rw [hpassed] at hidle
    cases hidle

theorem Follows.nil_eq {h h' : Hold} {i i' : Nat} (hf : Follows E c t h i [] h' i') : h = h' ∧ i = i' := by
  cases hf
  exact ⟨rfl, rfl⟩

/-- The operation is the next one of the recording. -/
theorem Tracked.next {op : ReplayOp} {ops : List ReplayOp} (htr : Tracked E c s a t) (hops : s.ops t = op :: ops)
    (hpeek : ∀ l, op = .peekSyncEvent l → s.nextEvent E t ≠ none) : ∃ rem h post h',
      E.calls t = (s.issued t).map Prod.fst ++ rem ∧ ops ++ rem.flatMap SyncCall.replay = post ++ E.rest t ∧
      (∀ l p, h l = some p ↔ a.HeldAt E t l p) ∧
      Follows E c t h (s.iter t) (op :: post) h' (E.syncevents t).length ∧ E.Keeps t h' := by
  obtain ⟨rem, h, post, h', hcalls, hpost, hh, hf, hk⟩ := htr
  rw [hops] at hpost
  cases post with
  | nil =>
    -- only the way out of a `cond_wait` is left, and its event has not been recorded
    obtain ⟨-, hlen⟩ := Follows.nil_eq hf
    rw [Epoch.rest] at hpost
    split at hpost
    · cases hpost
    · rename_i m _
      injection hpost with hop _
      refine absurd ?_ (hpeek (.mutex m) hop)
      rw [nextEvent, hlen]
      exact List.getElem?_eq_none (Nat.le_refl _)
  | cons op' post =>
    injection hpost with hop hpost
    subst hop
    exact ⟨rem, h, post, h', hcalls, hpost, hh, hf, hk⟩

section
variable (h : Sim E s a) (hE : E.Listed) (h' : Sim E s' a') {op : ReplayOp} {ops : List ReplayOp}
  (hops : s.ops t = op :: ops) (hmoved : s.Moved E t a a' op)
include h hE h' hops hmoved

/-- An operation leaves what the other threads hold. -/
theorem Sim.heldAt_other (hu : u ≠ t) (l : SyncVar) (p : Nat) : a'.HeldAt E u l p ↔ a.HeldAt E u l p := by
  cases op with
  | waitSemaphore =>
    rw [Moved] at hmoved
    split at hmoved
    · subst hmoved
      have hw : stage (s.ops t) = .waiting := by rw [hops]; rfl
      obtain ⟨ev, hev, -⟩ := h.ret t (.inl hw)
      obtain ⟨q, hq⟩ : ∃ q : Nat, (E.list ev.eventlist)[q]? = some (s.firstIterEntry t) :=
        List.getElem?_of_mem (hE.listed t _ ev hev)
      rw [Turns.heldAt_pass hE hq (h.position h' hw hq)]
      refine or_iff_right_of_imp ?_
      rintro ⟨ht, -⟩
      exact absurd ht.symm hu
    · rw [hmoved]
  | advanceSyncEvent l' =>
    obtain ⟨-, hheld, -⟩ := hops ▸ h.program t
    subst hmoved
    rw [Turns.heldAt_grant (x := .signalled t) hE (by simp)]
    refine and_iff_right_of_imp fun hp => ?_
    rintro rfl
    exact hu (Turns.Held.unique ⟨p, hp⟩ hheld)
  | peekSyncEvent | wakeupThread | advanceThreadSyncList | signalNextThread => exact Turns.Same.heldAt hmoved

theorem Tracked.self (htr : Tracked E c s a t) (hw : Went E s s' t op ops) : Tracked E c s' a' t := by
  obtain ⟨rem, hold, post, hend, hcalls, hpost, hh, hf, hk⟩ := htr.next hops hw.peek
  obtain ⟨next, hnext⟩ := hw.ops
  have hiter := hw.iter
  -- with what the thread holds afterwards, the rest of the recording goes on
  suffices hgo : ∃ hold', (∀ l p, hold' l = some p ↔ a'.HeldAt E t l p) ∧
      Follows E c t hold' (s'.iter t) post hend (E.syncevents t).length by
    obtain ⟨hold', hh', hf'⟩ := hgo
    refine ⟨rem, hold', next.map .signalNextThread ++ post, hend, ?_, ?_, hh', follows_signals next hf', hk⟩
    · rw [hw.issued]
      exact hcalls
    · rw [hnext, List.append_assoc, List.append_assoc, hpost]
  cases hf with
  | peek _ _ hf =>
    rw [if_neg (by simp)] at hiter
    exact ⟨hold, fun l p => (hh l p).trans (Turns.Same.heldAt hmoved).symm, by rw [hiter]; exact hf⟩
  | @wait _ _ _ _ _ l p hpos hgood _ _ hf =>
    rw [if_neg (by simp)] at hiter
    have hst : stage (s.ops t) = .waiting := by rw [hops]; rfl
    obtain ⟨ev, hev, hret⟩ := h.ret t (.inl hst)
    rw [Moved, if_pos (hret.symm.trans ((good_first hev).mp hgood))] at hmoved
    subst hmoved
    have hpos : (E.list l)[p]? = some (s.firstIterEntry t) := hpos
    have hp := h.position h' hst hpos
    refine ⟨_, fun l' p' => ?_, by rw [hiter]; exact hf⟩
    rw [Turns.heldAt_pass hE hpos hp]
    by_cases hl : l' = l
    · subst hl
      rw [Function.update_self]
      constructor
      · intro heq
        exact .inl ⟨rfl, rfl, (Option.some.inj heq).symm⟩
      · rintro (⟨-, -, rfl⟩ | ⟨e, -, hp', -⟩)
        · rfl
        · exact congrArg some (by omega)
    · rw [Function.update_of_ne hl, hh]
      exact (or_iff_right fun hand => hl hand.2.1).symm
  | @fail _ _ _ _ _ ev hev hret hf =>
    rw [if_neg (by simp)] at hiter
    have hst : stage (s.ops t) = .waiting := by rw [hops]; rfl
    obtain ⟨ev', hev', hret'⟩ := h.ret t (.inl hst)
    obtain rfl : ev' = ev := Option.some.inj (hev'.symm.trans hev)
    rw [Moved, if_neg (fun hzero => hret (hret'.trans hzero))] at hmoved
    subst hmoved
    exact ⟨hold, hh, by rw [hiter]; exact hf⟩
  | wakeup hf =>
    rw [if_neg (by simp)] at hiter
    exact ⟨hold, fun l p => (hh l p).trans (Turns.Same.heldAt hmoved).symm, by rw [hiter]; exact hf⟩
  | advance hf =>
    rw [if_pos rfl] at hiter
    exact ⟨hold, fun l p => (hh l p).trans (Turns.Same.heldAt hmoved).symm, by rw [hiter]; exact hf⟩
  | @release _ _ _ _ _ l hne hf =>
    rw [if_neg (by simp)] at hiter
    subst hmoved
    refine ⟨_, fun l' p' => ?_, by rw [hiter]; exact hf⟩
    rw [Turns.heldAt_grant (x := .signalled t) hE (by simp)]
    by_cases hl : l' = l
    · subst hl
      rw [Function.update_self]
      exact ⟨(by simp), fun hand => absurd rfl hand.1⟩
    · rw [Function.update_of_ne hl, hh]
      exact (and_iff_right hl).symm
  | signal hf =>
    rw [if_neg (by simp)] at hiter
    exact ⟨hold, fun l p => (hh l p).trans (Turns.Same.heldAt hmoved).symm, by rw [hiter]; exact hf⟩

end

/-- What is known of the threads in every state of the replay. -/
structure Course (E : Epoch) (c : Clock) (s : Replay) (a : Turns) : Prop where
  sim : Sim E s a
  tracked : ∀ t, E.stale t = false → Tracked E c s a t
  /-- A thread that has not been restarted has done nothing. -/
  idle : ∀ t, s.restarted t = false → s.ops t = [] ∧ s.issued t = [] ∧ s.iter t = 0

theorem Course.go (h : Course E c s a) (hE : E.Listed) (hok : s.Admits E (.go t)) (hgo : s.go E t = some s')
    (hr : s.restarted t = true) : ∃ a' op ops, Course E c s' a' ∧ Went E s s' t op ops ∧ s.Moved E t a a' op := by
  obtain ⟨a', op, ops, hsim, hops, hmoved⟩ := h.sim.go hE hok hgo
  obtain ⟨op', ops', hw⟩ := went_of_go hgo
  obtain ⟨rfl, rfl⟩ : op' = op ∧ ops' = ops := by simpa using hw.head.symm.trans hops
  refine ⟨a', _, _, ⟨hsim, fun u hst => ?_, fun u hu => ?_⟩, hw, hmoved⟩
  · by_cases hut : u = t
    · subst hut
      exact Tracked.self h.sim hE hsim hops hmoved (h.tracked u hst) hw
    · obtain ⟨ho, hi⟩ := hw.others u hut
      exact (h.tracked u hst).other ho hi (by rw [hw.issued]) (Sim.heldAt_other h.sim hE hsim hops hmoved hut)
  · rw [hw.restarted] at hu
    have hut : u ≠ t := by
      rintro rfl
      rw [hr] at hu
      cases hu
    obtain ⟨ho, hi⟩ := hw.others u hut
    rw [ho, hi, hw.issued]
    exact h.idle u hu

theorem Course.restart (h : Course E c s a) (hx : s.exec E (.restart t) = some s') : Course E c s' a := by
  have hsim := h.sim.restart hx
  rw [Replay.exec] at hx
  split at hx <;> cases hx
  refine ⟨hsim, h.tracked, fun u hu => h.idle u ?_⟩
  by_cases hut : u = t
  · subst hut
    exact absurd ((Function.update_self ..).symm.trans hu) (by simp)
  · exact (Function.update_of_ne hut _ _).symm.trans hu

theorem Course.issue {call : SyncCall} (h : Course E c s a) (hok : s.Admits E (.issue t call))
    (hsame : sameCalls E s (.issue t call)) (hx : s.exec E (.issue t call) = some s') : Course E c s' a := by
  rw [Replay.exec] at hx
  split at hx
  · rename_i hg
    obtain ⟨hr, hops, hlegal⟩ := hg
    cases hx
    refine ⟨h.sim.issue hops hlegal hok.1 hok.2, fun u hst => ?_, fun u hu => ?_⟩
    · by_cases hut : u = t
      · subst hut
        obtain ⟨rem, hold, post, hend, hcalls, hpost, hh, hf, hk⟩ := h.tracked u hst
        -- the call is the next one that the thread made
        obtain ⟨rem', rfl⟩ : ∃ rem', rem = call :: rem' := by
          have hpre : (s.issued u).map Prod.fst ++ [call] <+: E.calls u := hsame.resolve_left (by simp [hst])
          rw [hcalls, List.prefix_append_right_inj] at hpre
          obtain ⟨rem', hrem⟩ := hpre
          exact ⟨rem', hrem.symm⟩
        refine ⟨rem', hold, post, hend, ?_, ?_, hh, hf, hk⟩
        · rw [hcalls]
          show _ = (Function.update s.issued u (s.issued u ++ [(call, _)]) u).map Prod.fst ++ rem'
          rw [Function.update_self, List.map_append, List.append_assoc]
          rfl
        · rw [setOps_ops, if_pos rfl, ← hpost, hops, List.flatMap_cons]
          rfl
      · refine (h.tracked u hst).other ?_ rfl ?_ fun _ _ => Iff.rfl
        · rw [setOps_ops, if_neg hut]
          rfl
        · exact Function.update_of_ne hut _ _
    · have hut : u ≠ t := by
        rintro rfl
        exact absurd (hr.symm.trans hu) (by simp)
      obtain ⟨ho, hs, hi⟩ := h.idle u hu
      refine ⟨?_, ?_, hi⟩
      · rw [setOps_ops, if_neg hut]
        exact ho
      · exact (Function.update_of_ne hut _ _).trans hs
  · cases hx

theorem course_prepareRollback {now committer : Nat} (hR : E.Recorded c now) (hs : Sim E (prepareRollback E committer) a) :
    Course E c (prepareRollback E committer) a := by
  have hp := samePrograms_prepareRollback E committer
  have hops : ∀ t, (prepareRollback E committer).ops t = [] := fun t => congrFun hp.ops t
  have hissued : ∀ t, (prepareRollback E committer).issued t = [] := fun t => congrFun hp.issued t
  have hiter : ∀ t, (prepareRollback E committer).iter t = 0 := fun t => congrFun hp.iter t
  refine ⟨hs, fun t hst => ?_, fun t _ => ⟨hops t, hissued t, hiter t⟩⟩
  obtain ⟨done, hend, hcalls, hf, hk⟩ := hR.follows t hst
  have hnone : ∀ l p, ¬ a.HeldAt E t l p := by
    intro l p hheld
    have hprog := hs.program t
    rw [hops, hissued] at hprog
    cases l with
    | mutex m => exact absurd ((hprog.1 m).mp ⟨p, hheld⟩) Bool.false_ne_true
    | spawning => exact hprog.2 ⟨p, hheld⟩
  refine ⟨E.calls t, fun _ => none, done, hend, ?_, ?_, fun l p => ?_, ?_, hk⟩
  · rw [hissued]
    rfl
  · rw [hops]
    exact hcalls
  · exact ⟨(by simp), fun hheld => absurd hheld (hnone l p)⟩
  · rw [hiter]
    exact hf

end Replay

end DoubleTake
