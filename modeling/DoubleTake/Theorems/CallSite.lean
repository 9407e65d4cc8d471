import DoubleTake.CallSite

/-! Which call stacks `saveAndCheck` takes for the one before: those whose frames are all in the array, whatever the depth
    of the call stack that left them there. -/

namespace DoubleTake
namespace CallSite

variable {s : CallSite} {past : List (List Nat)} {cs addr : List Nat} {isSame : Bool} {i j a : Nat}

/-! ### The loops -/

theorem saveLoop_below (h : j < i) : (s.saveLoop i addr).callsite j = s.callsite j := by
  induction addr generalizing s i with
  | nil => rfl
  | cons a addr ih => exact (ih (by omega)).trans (Function.update_of_ne (by omega) _ _)

theorem saveLoop_callsite : (s.saveLoop i addr).callsite (i + j) = (addr[j]?).getD (s.callsite (i + j)) := by
  induction addr generalizing s i j with
  | nil => rfl
  | cons a addr ih =>
    cases j with
    | zero => exact (saveLoop_below (Nat.lt_succ_self i)).trans (Function.update_self ..)
    | succ j =>
      rw [List.getElem?_cons_succ, show i + (j + 1) = i + 1 + j by omega]
      exact ih.trans (congrArg _ (Function.update_of_ne (by omega) _ _))

/-- What is compared is stored as well where it differs, so the array is the same as after `save`. -/
theorem saveAndCheckLoop_snd : (s.saveAndCheckLoop isSame i addr).2 = s.saveLoop i addr := by
  induction addr generalizing s i isSame with
  | nil => rfl
  | cons a addr ih =>
    rw [saveAndCheckLoop, saveLoop]
    split
    · exact ih
    · rename_i heq
      rw [ih, ← not_not.mp heq, Function.update_eq_self]

theorem saveAndCheckLoop_fst :
    (s.saveAndCheckLoop isSame i addr).1 = true ↔ isSame = true ∧ ∀ j a, addr[j]? = some a → s.callsite (i + j) = a := by
  induction addr generalizing s i isSame with
  | nil => exact ⟨fun h => ⟨h, fun j a hj => by cases hj⟩, fun h => h.1⟩
  | cons a addr ih =>
    rw [saveAndCheckLoop]
    split
    · rename_i hne
      rw [ih]
      exact iff_of_false (fun h => by cases h.1) fun h => hne (h.2 0 a rfl)
    · rename_i heq
      rw [ih, and_congr_right_iff]
      refine fun _ => ⟨fun h j b hj => ?_, fun h j b hj => ?_⟩
      · cases j with
        | zero =>
          cases hj
          exact not_not.mp heq
        | succ j =>
          rw [show i + (j + 1) = i + 1 + j by omega]
          exact h j b hj
      · rw [show i + 1 + j = i + (j + 1) by omega]
        exact h (j + 1) b hj

theorem saveAndCheck_snd (s : CallSite) (addr : List Nat) : (s.saveAndCheck addr).2 = s.save addr := saveAndCheckLoop_snd

theorem save_callsite : (s.save addr).callsite i = (addr[i]?).getD (s.callsite i) := by
  have h := @saveLoop_callsite { s with depth := addr.length } addr 0 i
  rwa [Nat.zero_add] at h

/-! ### Histories of calls -/

/-- After calls with these call stacks, the latest first. -/
def after : List (List Nat) → CallSite
  | [] => initial
  | cs :: past => ((after past).saveAndCheck cs).2

/-- The frame in the last of these call stacks that is deep enough to have it. -/
def lastFrame : List (List Nat) → Nat → Option Nat
  | [], _ => none
  | cs :: past, i => cs[i]? <|> lastFrame past i

/-- As `getCallStack` gives it: neither empty nor too deep for the array, and without null addresses. -/
def Proper (cs : List Nat) : Prop := 1 ≤ cs.length ∧ cs.length ≤ CALLSITE_MAXIMUM_LENGTH ∧ ∀ a ∈ cs, a ≠ 0

instance (cs : List Nat) : Decidable (Proper cs) := inferInstanceAs (Decidable (_ ∧ _ ∧ _))

/-- Each frame is the one that the last call stack which was deep enough had there. -/
def Known (past : List (List Nat)) (cs : List Nat) : Prop := ∀ i a, cs[i]? = some a → lastFrame past i = some a

/-- A call stack is known only if the one before has its depth. -/
def DepthTells (past : List (List Nat)) (cs : List Nat) : Prop :=
  Known past cs → past.head?.map List.length = some cs.length

theorem after_callsite (past : List (List Nat)) (i : Nat) : (after past).callsite i = (lastFrame past i).getD 0 := by
  induction past with
  | nil => rfl
  | cons cs past ih =>
    rw [after, saveAndCheck_snd, save_callsite, ih, lastFrame]
    cases cs[i]? <;> rfl

theorem saveAndCheck_after (hc : Proper cs) : ((after past).saveAndCheck cs).1 = true ↔ Known past cs := by
  refine saveAndCheckLoop_fst.trans ((and_iff_right rfl).trans ?_)
  refine forall_congr' fun i => forall_congr' fun a => imp_congr_right fun hi => ?_
  show (after past).callsite (0 + i) = a ↔ _
  rw [Nat.zero_add, after_callsite]
  have ha : a ≠ 0 := hc.2.2 a (List.mem_of_getElem? hi)
  cases lastFrame past i with
  | none => exact iff_of_false (fun h => ha h.symm) fun h => by cases h
  | some b => exact Option.some.injEq b a ▸ Iff.rfl

theorem known_head (h : past.head? = some cs) : Known past cs := by
  obtain ⟨past, rfl⟩ : ∃ rest, past = cs :: rest := by
    cases past with
    | nil => cases h
    | cons d past =>
      cases h
      exact ⟨past, rfl⟩
  intro i a hi
  rw [lastFrame, hi]
  rfl

/-- With the depth of the call stack before, the frames that are compared are those of that one. -/
theorem Known.eq_head (h : Known past cs) (hlen : past.head?.map List.length = some cs.length) : past.head? = some cs := by
  cases past with
  | nil => cases hlen
  | cons d past =>
    have hd : d.length = cs.length := Option.some.inj hlen
    refine congrArg some (List.ext_getElem hd fun i h₁ h₂ => ?_)
    have hi := h i cs[i] (List.getElem?_eq_getElem h₂)
    rw [lastFrame, List.getElem?_eq_getElem h₁] at hi
    exact Option.some.inj hi

/-- A call answers right exactly if the depth tells its call stack from those that are known otherwise. -/
theorem saveAndCheck_right_iff (hc : Proper cs) :
    (((after past).saveAndCheck cs).1 = true ↔ past.head? = some cs) ↔ DepthTells past cs := by
  rw [saveAndCheck_after hc]
  refine ⟨fun h hk => ?_, fun h => ⟨fun hk => hk.eq_head (h hk), known_head⟩⟩
  rw [h.mp hk]
  rfl

end CallSite

/-! ### The trap handler -/

namespace Watchpoint
open CallSite

/-- The trap is one on the object whose call stack is compared. -/
def Trap.Checks (t : Trap) (object : Nat) : Prop :=
  t.object = some object ∧ t.inLibrary = false ∧ t.watchOnly = false ∧ t.faultType.isSome = true

instance (t : Trap) (object : Nat) : Decidable (t.Checks object) := inferInstanceAs (Decidable (_ ∧ _))

/-- The call stacks that have been compared for the object. -/
def callStacks (object : Nat) (past : List Trap) : List (List Nat) := (past.filter fun t => t.Checks object).map Trap.callStack

/-- The call stack that the last fault on the object has been reported with. -/
def lastReported (object : Nat) (reports : List Report) : Option (List Nat) :=
  reports.findSome? fun r => match r with
    | .fault o _ cs => if o = object then some cs else none
    | _ => none

/-- Each call stack that has been compared was told from the others by its depth. -/
def Regular : List Trap → Prop
  | [] => True
  | t :: past => Regular past ∧ ∀ object, t.Checks object → DepthTells (callStacks object past) t.callStack

variable {t : Trap} {past : List Trap} {sites : Nat → CallSite} {object : Nat}

/-- A trap that is not checked changes no call site and reports no fault. -/
theorem trapHandler_cases (sites : Nat → CallSite) (t : Trap) :
    (∃ object faultType, t.Checks object ∧ trapHandler sites t =
      (if ((sites object).saveAndCheck t.callStack).1 then none else some (.fault object faultType t.callStack),
        Function.update sites object ((sites object).saveAndCheck t.callStack).2)) ∨
      (∀ object, ¬ t.Checks object) ∧ ∃ report, trapHandler sites t = (report, sites) ∧
        ∀ object reports, lastReported object (report.toList ++ reports) = lastReported object reports := by
  cases hobj : t.object with
  | none =>
    refine .inr ⟨fun o ho => (by cases hobj.symm.trans ho.1), some .notFound, ?_, fun _ _ => rfl⟩
    simp only [trapHandler, hobj]
  | some object =>
    by_cases hlib : t.inLibrary = true
    · refine .inr ⟨fun o ho => (by cases hlib.symm.trans ho.2.1), none, ?_, fun _ _ => rfl⟩
      simp only [trapHandler, hobj, if_pos hlib]
    by_cases hwatch : t.watchOnly = true
    · refine .inr ⟨fun o ho => (by cases hwatch.symm.trans ho.2.2.1), some (.watched object), ?_, fun _ _ => rfl⟩
      simp only [trapHandler, hobj, if_neg hlib, if_pos hwatch]
    cases htype : t.faultType with
    | none =>
      refine .inr ⟨fun o ho => ?_, none, ?_, fun _ _ => rfl⟩
      · have := ho.2.2.2
        rw [htype] at this
        cases this
      · simp only [trapHandler, hobj, if_neg hlib, if_neg hwatch, htype]
    | some faultType =>
      refine .inl ⟨object, faultType, ⟨hobj, eq_false_of_ne_true hlib, eq_false_of_ne_true hwatch, by rw [htype]; rfl⟩, ?_⟩
      simp only [trapHandler, hobj, if_neg hlib, if_neg hwatch, htype]
      split <;> rfl

theorem callStacks_cons_of_checks (h : t.Checks object) : callStacks object (t :: past) = t.callStack :: callStacks object past :=
  congrArg (List.map Trap.callStack) (List.filter_cons_of_pos (decide_eq_true h))

theorem callStacks_cons_of_not (h : ¬ t.Checks object) : callStacks object (t :: past) = callStacks object past :=
  congrArg (List.map Trap.callStack) (List.filter_cons_of_neg fun hd => h (of_decide_eq_true hd))

theorem Trap.Checks.object_eq {o : Nat} (h : t.Checks object) (ho : t.Checks o) : o = object :=
  Option.some.inj (ho.1.symm.trans h.1)

/-- The last call stack that was compared for an object is the one that was reported last: an equal one is not reported. -/
theorem handle_spec (hproper : ∀ t ∈ past, Proper t.callStack) (hreg : Regular past) (object : Nat) :
    (handle past).2 object = after (callStacks object past) ∧
      lastReported object (handle past).1 = (callStacks object past).head? := by
  induction past generalizing object with
  | nil => exact ⟨rfl, rfl⟩
  | cons t past ih =>
    have ih := ih (fun u hu => hproper u (List.mem_cons_of_mem _ hu)) hreg.1
    have hc := hproper t List.mem_cons_self
    show (trapHandler (handle past).2 t).2 object = _ ∧
      lastReported object ((trapHandler (handle past).2 t).1.toList ++ (handle past).1) = _
    rcases trapHandler_cases (handle past).2 t with ⟨o, faultType, hchecks, heq⟩ | ⟨hnot, report, heq, hlast⟩
    · rw [heq]
      by_cases ho : object = o
      · subst ho
        rw [callStacks_cons_of_checks hchecks]
        refine ⟨(Function.update_self ..).trans (by rw [(ih object).1]; rfl), ?_⟩
        have hright := (saveAndCheck_right_iff hc).mpr (hreg.2 object hchecks)
        rw [(ih object).1]
        split
        · rename_i hsame
          exact (ih object).2.trans (hright.mp hsame)
        · exact List.findSome?_cons_of_isSome (f := _) (by simp) |>.trans (by simp)
      · rw [callStacks_cons_of_not fun h => ho (hchecks.object_eq h)]
        refine ⟨(Function.update_of_ne ho _ _).trans (ih object).1, Eq.trans ?_ (ih object).2⟩
        split
        · rfl
        · simp [lastReported, Ne.symm ho]
    · rw [heq, hlast, callStacks_cons_of_not (hnot object)]
      exact ih object

end Watchpoint

/-- A call stack is taken for the one before exactly if it is, when its depth tells it from those whose frames are still in
    the array; and in a run in which it always does, a fault is not reported exactly if its call stack is the one that has been
    reported last for the object. -/
theorem CallSite.suppresses_repeats_iff {past : List (List Nat)} {cs : List Nat} (hc : Proper cs)
    {traps : List Watchpoint.Trap} {t : Watchpoint.Trap} {object : Nat} (hproper : ∀ u ∈ t :: traps, Proper u.callStack)
    (hchecks : t.Checks object) :
    ((((after past).saveAndCheck cs).1 = true ↔ past.head? = some cs) ↔ DepthTells past cs) ∧
      (Watchpoint.Regular (t :: traps) → ((Watchpoint.trapHandler (Watchpoint.handle traps).2 t).1 = none ↔
        Watchpoint.lastReported object (Watchpoint.handle traps).1 = some t.callStack)) := by
  refine ⟨saveAndCheck_right_iff hc, fun hreg => ?_⟩
  have ht := hproper t List.mem_cons_self
  obtain ⟨hsites, hlast⟩ := Watchpoint.handle_spec (fun u hu => hproper u (List.mem_cons_of_mem _ hu)) hreg.1 object
  rw [hlast, ← (saveAndCheck_right_iff ht).mpr (hreg.2 object hchecks), ← hsites]
  rcases Watchpoint.trapHandler_cases (Watchpoint.handle traps).2 t with ⟨o, faultType, ho, heq⟩ | ⟨hnot, -⟩
  · rw [heq, ho.object_eq hchecks]
    split <;> simp_all
  · exact absurd hchecks (hnot object)

theorem CallSite.suppresses_repeats_again : ((after [[4096, 8192], [4096]]).saveAndCheck [4096, 8192]).1 = true ∧
    (Watchpoint.trapHandler (Watchpoint.handle [⟨some 0, false, false, some .overflow, [4096]⟩]).2
      ⟨some 0, false, false, some .overflow, [4096]⟩).1 = none := by
  have hreg : Watchpoint.Regular [⟨some 0, false, false, some .overflow, [4096]⟩, ⟨some 0, false, false, some .overflow, [4096]⟩] := by
    refine ⟨⟨trivial, fun o ho hk => ?_⟩, fun o ho _ => ?_⟩
    · exact absurd (hk 0 4096 rfl) (by simp [Watchpoint.callStacks, lastFrame])
    · obtain rfl : 0 = o := Option.some.inj ho.1
      decide
  have htells : DepthTells [[4096, 8192], [4096]] [4096, 8192] := fun _ => rfl
  obtain ⟨hsame, hsilent⟩ := @suppresses_repeats_iff [[4096, 8192], [4096]] [4096, 8192] (by decide)
    [⟨some 0, false, false, some .overflow, [4096]⟩] ⟨some 0, false, false, some .overflow, [4096]⟩ 0 (by decide) (by decide)
  exact ⟨(hsame.mpr htells).mpr rfl, (hsilent hreg).mpr (by decide)⟩

/-- A fault with one frame after one with two of them, the first of which is the same, is not reported. -/
theorem CallSite.shallower_suppressed :
    ¬ ∀ past cs, (∀ d ∈ past, Proper d) → Proper cs → (((after past).saveAndCheck cs).1 = true ↔ past.head? = some cs) := by
  intro h
  have := h [[4096, 8192]] [4096] (by decide) (by decide)
  exact absurd (this.mp (by decide)) (by decide)

end DoubleTake
