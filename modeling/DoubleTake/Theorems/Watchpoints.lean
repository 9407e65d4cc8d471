import DoubleTake.Lib.Except
import DoubleTake.Theorems.Sentinels
import DoubleTake.Watchpoints

/-! Which of the guard bytes that an overflow has damaged are watched when the epoch is replayed. -/

namespace DoubleTake

/-! ### Installing -/

theorem foldl_install_watchpoint (wp : List FaultyObject) (events : List PerfEvent) (fd : Nat) :
    wp.foldl (fun c w => install_watchpoint c.1 w.faultyaddr) (events, fd) =
      (events ++ wp.map fun w => ⟨w.faultyaddr, HW_BREAKPOINT_LEN_4, true⟩,
        if wp = [] then fd else events.length + wp.length - 1) := by
  induction wp generalizing events fd with
  | nil => simp
  | cons w wp ih =>
    rw [List.foldl_cons, install_watchpoint, ih]
    simp only [List.append_assoc, List.singleton_append, List.map_cons, List.length_append, List.length_cons, List.length_nil,
      reduceCtorEq, if_false, Prod.mk.injEq, true_and]
    cases wp with
    | nil => simp
    | cons v wp =>
      simp only [reduceCtorEq, if_false, List.length_cons]
      omega

/-- Each watchpoint has its event, and the last one is enabled. -/
theorem installWatchpoints_getElem? (wp : List FaultyObject) (i : Nat) :
    (installWatchpoints wp)[i]? =
      wp[i]?.map fun w => ⟨w.faultyaddr, HW_BREAKPOINT_LEN_4, decide (i + 1 ≠ wp.length)⟩ := by
  unfold installWatchpoints
  by_cases h0 : wp.length = 0
  · rw [List.length_eq_zero_iff] at h0
    subst h0
    rfl
  · have hne : wp ≠ [] := fun h => h0 (by rw [h]; rfl)
    rw [if_neg h0, foldl_install_watchpoint]
    simp only [List.nil_append, List.length_nil, Nat.zero_add, if_neg hne, enable_watchpoints, List.getElem?_modify,
      List.getElem?_map]
    cases hw : wp[i]? with
    | none => rfl
    | some w =>
      have hi : i < wp.length := (List.getElem?_eq_some_iff.mp hw).1
      by_cases hlast : wp.length - 1 = i
      · simp [hlast, show i + 1 = wp.length by omega]
      · simp [hlast, show i + 1 ≠ wp.length by omega]

theorem length_installWatchpoints (wp : List FaultyObject) : (installWatchpoints wp).length = wp.length := by
  refine Nat.le_antisymm (Nat.le_of_not_lt fun hlt => ?_) (Nat.le_of_not_lt fun hlt => ?_)
  · have hsome := List.getElem?_eq_getElem hlt
    rw [installWatchpoints_getElem?, List.getElem?_eq_none (Nat.le_refl _)] at hsome
    cases hsome
  · have hnone := List.getElem?_eq_none (Nat.le_refl (installWatchpoints wp).length)
    rw [installWatchpoints_getElem?, List.getElem?_eq_getElem hlt] at hnone
    cases hnone

/-- The kernel opens one event after the other, up to the first one that it refuses. -/
theorem PerfEvents.openAll_cases (k : PerfEvents) (es : List PerfEvent) :
    (k.openAll es = .error .perfEvent ∧ ∃ n, k.opened ≤ n ∧ k.opens n = false) ∨
      k.openAll es = .ok ⟨k.opened + es.length, k.opens⟩ ∧ ∀ n, k.opened ≤ n → n < k.opened + es.length → k.opens n = true := by
  induction es generalizing k with
  | nil => exact .inr ⟨rfl, fun n h₁ h₂ => absurd h₂ (Nat.not_lt.mpr h₁)⟩
  | cons e es ih =>
    rw [openAll]
    cases hopen : k.opens k.opened with
    | false => exact .inl ⟨rfl, k.opened, Nat.le_refl _, hopen⟩
    | true =>
      rw [if_pos rfl]
      rcases ih { k with opened := k.opened + 1 } with ⟨herr, n, hle, hn⟩ | ⟨hok, hall⟩
      · exact .inl ⟨herr, n, Nat.le_of_succ_le hle, hn⟩
      · refine .inr ⟨?_, fun n hle hlt => ?_⟩
        · rw [hok, List.length_cons, Nat.add_right_comm]
          rfl
        · rcases hle.eq_or_lt with rfl | hgt
          · exact hopen
          · exact hall n hgt (by rw [List.length_cons] at hlt; dsimp only; omega)

/-- A rollback recovers the memory and opens an event for each watchpoint, or the kernel refuses one of them. -/
theorem XMemory.rollback_cases (x : XMemory) :
    (x.rollback = .error .perfEvent ∧ ∃ n, x.perf.opened ≤ n ∧ x.perf.opens n = false) ∨
      x.rollback = .ok { x.recover with perf := ⟨x.perf.opened + x.heap.map.wp.length, x.perf.opens⟩ } ∧
        ∀ n, x.perf.opened ≤ n → n < x.perf.opened + x.heap.map.wp.length → x.perf.opens n = true := by
  rw [← length_installWatchpoints, XMemory.rollback]
  refine (x.perf.openAll_cases (installWatchpoints x.heap.map.wp)).imp (And.imp_left fun herr => ?_) (And.imp_left fun hok => ?_)
  · exact Except.bind_of_error herr
  · exact Except.bind_of_ok hok

theorem XMemory.rollback_ok {x y : XMemory} (h : x.rollback = .ok y) : ∃ perf, y = { x.recover with perf := perf } := by
  obtain ⟨perf, -, hy⟩ := Except.of_bind_ok h
  exact ⟨perf, (Except.ok.inj hy).symm⟩

/-! ### Damaged guard bytes -/

namespace XMemory

open SentinelMap

variable {map s : SentinelMap} {ptr bs sz : Nat}

/-- A guard byte that no longer has the value that `setSentinels` gave it. -/
def Damaged (map s : SentinelMap) (ptr bs sz a : Nat) : Prop :=
  GuardByte ptr bs sz a ∧ s.mem a ≠ (setSentinels map ptr bs sz).mem a

theorem checkSentinel_iff {m : Mem} {w : Nat} (h : m.read w 8 = SENTINEL_WORD) :
    s.checkSentinel w = true ↔ ∃ a, w ≤ a ∧ a < w + 8 ∧ s.mem a ≠ m a := by
  rw [← Bool.not_eq_false, checkSentinel_eq_false]
  constructor
  · intro hread
    by_contra hsame
    push Not at hsame
    exact hread ((Mem.read_congr hsame).trans h)
  · rintro ⟨a, hlo, hhi, hne⟩ hread
    exact hne (Mem.agree_of_read (hread.trans h.symm) a hlo hhi)

theorem checkMagicBytes_iff {m : Mem} {p n : Nat} (hn : 1 ≤ n) (h : MagicBytes m p n) :
    s.checkMagicBytes p n = true ↔ ∃ a, p ≤ a ∧ a < p + n ∧ s.mem a ≠ m a := by
  rw [← Bool.not_eq_false, checkMagicBytes_eq_false hn]
  constructor
  · intro hmagic
    by_contra hsame
    push Not at hsame
    exact hmagic (h.congr hn fun a h₁ h₂ => (hsame a h₁ h₂).symm)
  · rintro ⟨a, hlo, hhi, hne⟩ hmagic
    exact hne (hmagic.agree h a hlo hhi)

/-- The bytes of the word in which the guard begins, and of the word after it. -/
theorem guardByte_iff (hp : ptr % 8 = 0) {a : Nat} : GuardByte ptr bs sz a ↔
    (ptr + sz ≤ a ∧ a < guardStart ptr sz + 8) ∨
      (sz % 8 ≠ 0 ∧ bs - sz > 8 ∧ guardStart ptr sz + 8 ≤ a ∧ a < guardStart ptr sz + 16) := by
  unfold GuardByte guardStart
  by_cases h8 : sz % 8 = 0
  · rw [if_pos h8]
    omega
  · rw [if_neg h8]
    omega

/-- A watchpoint on a word of the guard, when the word is damaged. -/
def watchIf (s : SentinelMap) (ptr : Nat) (damaged : Bool) (w : Nat) (wp : List FaultyObject) : List FaultyObject :=
  if damaged then addWatchpoint wp w (s.word w) .overflow ptr else wp

/-- What the check finds, and the watchpoints it leaves: the word in which the guard begins comes last. -/
theorem checkObjectOverflow_wp (hsz : sz ≤ bs) (hbs : bs < 2 ^ 64) (hp : ptr % 8 = 0) (c : Bool) : ∃ first next : Bool,
    (first = true ↔ ∃ a, Damaged map s ptr bs sz a ∧ a < guardStart ptr sz + 8) ∧
    (next = true ↔ ∃ a, Damaged map s ptr bs sz a ∧ guardStart ptr sz + 8 ≤ a) ∧
    (s.checkObjectOverflow ptr bs sz c).1 = (first || next) ∧
    (s.checkObjectOverflow ptr bs sz c).2.wp =
      watchIf s ptr first (guardStart ptr sz) (watchIf s ptr next (guardStart ptr sz + 8) s.wp) := by
  have hintact : GuardIntact (setSentinels map ptr bs sz).mem ptr bs sz := setSentinels_intact hsz hbs hp
  by_cases h8 : sz % 8 = 0
  · rw [GuardIntact, if_pos h8] at hintact
    have hstart : guardStart ptr sz = ptr + sz := by simp only [guardStart, h8, Nat.sub_zero]
    refine ⟨s.checkSentinel (ptr + sz), false, ?_, ?_, ?_, ?_⟩
    · rw [checkSentinel_iff hintact, hstart]
      constructor
      · rintro ⟨a, hlo, hhi, hne⟩
        exact ⟨a, ⟨(guardByte_iff hp).mpr (.inl ⟨hlo, by omega⟩), hne⟩, hhi⟩
      · rintro ⟨a, ⟨hbyte, hne⟩, hhi⟩
        exact ⟨a, hbyte.1, hhi, hne⟩
    · refine iff_of_false (by simp) ?_
      rintro ⟨a, ⟨hbyte, -⟩, hhi⟩
      rw [guardByte_iff hp] at hbyte
      omega
    · simp only [checkObjectOverflow, WORD_SIZE, h8, if_true, Bool.or_false]
    · unfold checkObjectOverflow
      simp only [WORD_SIZE, h8, if_true, hstart]
      cases hov : s.checkSentinel (ptr + sz) <;> cases c <;> rfl
  · rw [GuardIntact, if_neg h8] at hintact
    obtain ⟨hmagic, hnextword⟩ := hintact
    refine ⟨s.checkMagicBytes (ptr + sz) (8 - sz % 8), decide (bs - sz > 8) && s.checkSentinel (guardStart ptr sz + 8), ?_, ?_, ?_, ?_⟩
    · rw [checkMagicBytes_iff (by omega) hmagic]
      constructor
      · rintro ⟨a, hlo, hhi, hne⟩
        have hword : a < guardStart ptr sz + 8 := by
          simp only [guardStart]
          omega
        exact ⟨a, ⟨(guardByte_iff hp).mpr (.inl ⟨hlo, hword⟩), hne⟩, hword⟩
      · rintro ⟨a, ⟨hbyte, hne⟩, hhi⟩
        refine ⟨a, hbyte.1, ?_, hne⟩
        simp only [guardStart] at hhi
        omega
    · rw [Bool.and_eq_true, decide_eq_true_eq]
      constructor
      · rintro ⟨hgt, hdamaged⟩
        obtain ⟨a, hlo, hhi, hne⟩ := (checkSentinel_iff (hnextword hgt)).mp hdamaged
        exact ⟨a, ⟨(guardByte_iff hp).mpr (.inr ⟨h8, hgt, hlo, by omega⟩), hne⟩, hlo⟩
      · rintro ⟨a, ⟨hbyte, hne⟩, hlo⟩
        rw [guardByte_iff hp] at hbyte
        obtain ⟨-, hgt, -, hhi⟩ := hbyte.resolve_left (by omega)
        exact ⟨hgt, (checkSentinel_iff (hnextword hgt)).mpr ⟨a, hlo, by omega, hne⟩⟩
    · simp only [checkObjectOverflow, WORD_SIZE, h8, if_false, guardStart]
      rw [show (2 ^ 64 + bs - sz) % 2 ^ 64 = bs - sz by omega]
    · unfold checkObjectOverflow guardStart
      simp only [WORD_SIZE, h8, if_false]
      rw [show (2 ^ 64 + bs - sz) % 2 ^ 64 = bs - sz by omega]
      by_cases hgt : bs - sz > 8
      · cases hfirst : s.checkMagicBytes (ptr + sz) (8 - sz % 8) <;>
          cases hnext : s.checkSentinel (ptr + sz - sz % 8 + 8) <;> cases c <;> simp [hgt, watchIf, addWatchpoint, word, SentinelMap.addWatchpoint]
      · cases hfirst : s.checkMagicBytes (ptr + sz) (8 - sz % 8) <;> cases c <;>
          simp [hgt, watchIf, addWatchpoint, word, SentinelMap.addWatchpoint]

/-! ### Watched bytes -/

theorem installed_iff (old added more : List FaultyObject) (a : Nat) :
    (∃ i e, old.length ≤ i ∧ i < (old ++ added).length ∧ (installWatchpoints (old ++ added ++ more))[i]? = some e ∧ e.Covers a) ↔
      ∃ w ∈ added, w.faultyaddr ≤ a ∧ a < w.faultyaddr + HW_BREAKPOINT_LEN_4 := by
  constructor
  · rintro ⟨i, e, hlo, hhi, he, hcov⟩
    rw [installWatchpoints_getElem?, List.append_assoc, List.getElem?_append_right hlo] at he
    rw [List.length_append] at hhi
    rw [List.getElem?_append_left (by omega), Option.map_eq_some_iff] at he
    obtain ⟨w, hw, rfl⟩ := he
    exact ⟨w, List.mem_of_getElem? hw, hcov⟩
  · rintro ⟨w, hw, hcov⟩
    obtain ⟨j, hj, hget⟩ := List.mem_iff_getElem.mp hw
    refine ⟨old.length + j, ⟨w.faultyaddr, HW_BREAKPOINT_LEN_4, decide (old.length + j + 1 ≠ (old ++ added ++ more).length)⟩,
      by omega, by rw [List.length_append]; omega, ?_, hcov⟩
    rw [installWatchpoints_getElem?, List.append_assoc, List.getElem?_append_right (by omega),
      List.getElem?_append_left (by omega), show old.length + j - old.length = j by omega, List.getElem?_eq_getElem hj, hget,
      Option.map_some]

theorem enabled_iff (old added more : List FaultyObject) (a : Nat) :
    (∃ i e, old.length ≤ i ∧ i < (old ++ added).length ∧ (installWatchpoints (old ++ added ++ more))[i]? = some e ∧ e.Covers a ∧
        e.disabled = false) ↔
      more = [] ∧ ∃ w, added.getLast? = some w ∧ w.faultyaddr ≤ a ∧ a < w.faultyaddr + HW_BREAKPOINT_LEN_4 := by
  constructor
  · rintro ⟨i, e, hlo, hhi, he, hcov, hon⟩
    rw [installWatchpoints_getElem?, Option.map_eq_some_iff] at he
    obtain ⟨w, hw, rfl⟩ := he
    -- The event that is enabled is the last one of all.
    rw [decide_eq_false_iff_not, not_not] at hon
    simp only [List.length_append] at hhi hon
    have hmore : more = [] := List.length_eq_zero_iff.mp (by omega)
    subst hmore
    rw [List.append_nil, List.getElem?_append_right hlo] at hw
    simp only [List.length_nil] at hon
    refine ⟨rfl, w, ?_, hcov⟩
    rw [List.getLast?_eq_getElem?, show added.length - 1 = i - old.length by omega]
    exact hw
  · rintro ⟨rfl, w, hlast, hcov⟩
    rw [List.getLast?_eq_getElem?] at hlast
    have hlen := (List.getElem?_eq_some_iff.mp hlast).1
    refine ⟨old.length + (added.length - 1), ⟨w.faultyaddr, HW_BREAKPOINT_LEN_4, false⟩, by omega,
      by rw [List.length_append]; omega, ?_, hcov, rfl⟩
    rw [installWatchpoints_getElem?, List.append_nil, List.getElem?_append_right (by omega),
      show old.length + (added.length - 1) - old.length = added.length - 1 by omega, hlast, List.length_append]
    simp only [Option.map_some, ne_eq, Option.some.injEq, PerfEvent.mk.injEq, true_and, decide_eq_false_iff_not, not_not]
    omega

/-- Every damaged byte of the guard is in the range of an event with `p`, for a watchpoint that the check adds. `more` are the
    watchpoints that are added between the check and the rollback. -/
def Watched (map s : SentinelMap) (ptr bs sz : Nat) (c : Bool) (more : List FaultyObject) (p : PerfEvent → Prop) : Prop :=
  ∀ a, Damaged map s ptr bs sz a → ∃ i e, s.wp.length ≤ i ∧ i < (s.checkObjectOverflow ptr bs sz c).2.wp.length ∧
    (installWatchpoints ((s.checkObjectOverflow ptr bs sz c).2.wp ++ more))[i]? = some e ∧ e.Covers a ∧ p e

/-- Only bytes in the lower half of their word are damaged. -/
def LowerHalves (map s : SentinelMap) (ptr bs sz : Nat) : Prop := ∀ a, Damaged map s ptr bs sz a → a % 8 < 4

/-- Both guard words are damaged. -/
def BothWords (map s : SentinelMap) (ptr bs sz : Nat) : Prop :=
  (∃ a, Damaged map s ptr bs sz a ∧ a < guardStart ptr sz + 8) ∧ ∃ a, Damaged map s ptr bs sz a ∧ guardStart ptr sz + 8 ≤ a

/-- The watchpoint on a guard word. -/
def wordWatch (s : SentinelMap) (ptr w : Nat) : FaultyObject := ⟨.overflow, w, ptr, s.word w⟩

/-- The watchpoints that the check adds, with `room` for that many. -/
def addedWatchpoints (s : SentinelMap) (ptr sz room : Nat) (first next : Bool) : List FaultyObject :=
  ((if next then [wordWatch s ptr (guardStart ptr sz + 8)] else []) ++
    if first then [wordWatch s ptr (guardStart ptr sz)] else []).take room

theorem watchIf_eq (hroom : s.wp.length < MAX_WATCHPOINTS) (first next : Bool) :
    watchIf s ptr first (guardStart ptr sz) (watchIf s ptr next (guardStart ptr sz + 8) s.wp) =
      s.wp ++ addedWatchpoints s ptr sz (MAX_WATCHPOINTS - s.wp.length) first next := by
  obtain ⟨room, hr⟩ : ∃ room, MAX_WATCHPOINTS - s.wp.length = room + 1 := ⟨MAX_WATCHPOINTS - s.wp.length - 1, by omega⟩
  cases first <;> cases next <;>
    simp only [watchIf, addedWatchpoints, wordWatch, addWatchpoint, Bool.false_eq_true, if_false, if_true, hroom, hr]
  · simp
  · simp
  · simp
  · rw [List.length_append, List.length_singleton]
    by_cases h2 : s.wp.length + 1 < MAX_WATCHPOINTS
    · obtain ⟨n, rfl⟩ : ∃ n, room = n + 1 := ⟨room - 1, by omega⟩
      rw [if_pos h2]
      simp
    · have h0 : room = 0 := by omega
      rw [if_neg h2, h0]
      simp

/-- The hardware watches the first bytes at the address of a watchpoint. -/
def WatchedAt (o : FaultyObject) (a : Nat) : Prop := o.faultyaddr ≤ a ∧ a < o.faultyaddr + HW_BREAKPOINT_LEN_4

theorem watchedAt_wordWatch {w a : Nat} : WatchedAt (wordWatch s ptr w) a ↔ w ≤ a ∧ a < w + 4 := Iff.rfl

/-- The damaged bytes are in the two words of the guard. -/
theorem Damaged.bounds {a : Nat} (hp : ptr % 8 = 0) (h : Damaged map s ptr bs sz a) :
    guardStart ptr sz ≤ a ∧ a < guardStart ptr sz + 16 := by
  have := (guardByte_iff hp).mp h.1
  simp only [guardStart] at this ⊢
  omega

/-- With the damage in one word, its watchpoint is the only one that is added. -/
theorem watched_one {w : Nat} (hw : w % 8 = 0) {more : List FaultyObject} (hd : ∃ a, Damaged map s ptr bs sz a)
    (hin : ∀ a, Damaged map s ptr bs sz a → w ≤ a ∧ a < w + 8) :
    ((∀ a, Damaged map s ptr bs sz a → ∃ o ∈ [wordWatch s ptr w], WatchedAt o a) ↔ LowerHalves map s ptr bs sz) ∧
      ((∀ a, Damaged map s ptr bs sz a → more = [] ∧ ∃ o, [wordWatch s ptr w].getLast? = some o ∧ WatchedAt o a) ↔
        LowerHalves map s ptr bs sz ∧ more = []) := by
  obtain ⟨b, hb⟩ := hd
  simp only [List.mem_singleton, exists_eq_left, List.getLast?_singleton, Option.some.injEq, exists_eq_left',
    watchedAt_wordWatch]
  constructor
  · refine forall₂_congr fun a ha => ?_
    have := hin a ha
    omega
  · constructor
    · intro h
      refine ⟨fun a ha => ?_, (h b hb).1⟩
      have := h a ha
      omega
    · rintro ⟨h, hmore⟩ a ha
      have := hin a ha
      have := h a ha
      exact ⟨hmore, by omega, by omega⟩

/-- With damage in both words the next word is watched first, and the first one when there is room. Only the last of
    the two has an event that is enabled. -/
theorem watched_both (hp : ptr % 8 = 0) {room : Nat} {more : List FaultyObject} (h : BothWords map s ptr bs sz) :
    ((∀ a, Damaged map s ptr bs sz a → ∃ o ∈ addedWatchpoints s ptr sz (room + 1) true true, WatchedAt o a) ↔
        LowerHalves map s ptr bs sz ∧ 1 ≤ room) ∧
      ¬ ∀ a, Damaged map s ptr bs sz a → more = [] ∧
        ∃ o, (addedWatchpoints s ptr sz (room + 1) true true).getLast? = some o ∧ WatchedAt o a := by
  obtain ⟨⟨b, hb, hbw⟩, d, hd, hdw⟩ := h
  have hadd : addedWatchpoints s ptr sz (room + 1) true true =
      wordWatch s ptr (guardStart ptr sz + 8) :: [wordWatch s ptr (guardStart ptr sz)].take room := by
    simp [addedWatchpoints]
  rw [hadd]
  have hbr := hb.bounds hp
  have hdr := hd.bounds hp
  cases room with
  | zero =>
    simp only [List.take_zero, List.mem_singleton, exists_eq_left, List.getLast?_singleton, Option.some.injEq, exists_eq_left',
      watchedAt_wordWatch]
    refine ⟨iff_of_false (fun h => ?_) (by omega), fun h => ?_⟩
    · have := h b hb
      omega
    · have := (h b hb).2
      omega
  | succ n =>
    simp only [List.take_succ_cons, List.take_nil, List.mem_cons, List.not_mem_nil, or_false, exists_eq_or_imp, exists_eq_left,
      List.getLast?_cons_cons, List.getLast?_singleton, Option.some.injEq, exists_eq_left', watchedAt_wordWatch]
    refine ⟨?_, fun h => ?_⟩
    · rw [and_iff_left (by omega)]
      refine forall₂_congr fun a ha => ?_
      have := ha.bounds hp
      simp only [guardStart] at this ⊢
      omega
    · have := (h d hd).2
      omega

/-- Which damaged bytes are watched after a check that finds an overflow: of each word the first four bytes, of two damaged words
    both only when there is room for both watchpoints, and with an event that is enabled only those of one word, when no watchpoint is
    set after it. -/
theorem watched_iff (map s : SentinelMap) (more : List FaultyObject) (c : Bool) (hsz : sz ≤ bs) (hbs : bs < 2 ^ 64) (hp : ptr % 8 = 0)
    (hov : (s.checkObjectOverflow ptr bs sz c).1 = true) (hroom : s.wp.length < MAX_WATCHPOINTS) :
    (Watched map s ptr bs sz c more (fun _ => True) ↔
      LowerHalves map s ptr bs sz ∧ (BothWords map s ptr bs sz → s.wp.length + 2 ≤ MAX_WATCHPOINTS)) ∧
    (Watched map s ptr bs sz c more (fun e => e.disabled = false) ↔
      LowerHalves map s ptr bs sz ∧ ¬ BothWords map s ptr bs sz ∧ more = []) := by
  obtain ⟨first, next, hfirst, hnext, hret, hwp⟩ := @checkObjectOverflow_wp map s ptr bs sz hsz hbs hp c
  rw [hret] at hov
  rw [watchIf_eq hroom] at hwp
  unfold Watched
  rw [hwp]
  simp only [and_true, installed_iff, enabled_iff]
  obtain ⟨room, hr⟩ : ∃ room, MAX_WATCHPOINTS - s.wp.length = room + 1 := ⟨MAX_WATCHPOINTS - s.wp.length - 1, by omega⟩
  have hfit : 1 ≤ room ↔ s.wp.length + 2 ≤ MAX_WATCHPOINTS := by omega
  have hstart : guardStart ptr sz % 8 = 0 := by
    simp only [guardStart]
    omega
  have hboth : BothWords map s ptr bs sz ↔ first = true ∧ next = true := by
    rw [hfirst, hnext]
    rfl
  rw [hr, ← hfit]
  cases first <;> cases next
  · exact absurd hov Bool.false_ne_true
  · obtain ⟨b, hb, -⟩ := hnext.mp rfl
    have hin : ∀ a, Damaged map s ptr bs sz a → guardStart ptr sz + 8 ≤ a ∧ a < guardStart ptr sz + 8 + 8 := by
      intro a ha
      have hge : ¬ a < guardStart ptr sz + 8 := fun hlt => Bool.false_ne_true (hfirst.mpr ⟨a, ha, hlt⟩)
      have := ha.bounds hp
      omega
    obtain ⟨hinst, hen⟩ := @watched_one map s ptr bs sz (guardStart ptr sz + 8) (by omega) more ⟨b, hb⟩ hin
    have hnot : ¬ BothWords map s ptr bs sz := fun h => Bool.false_ne_true (hboth.mp h).1
    have hadd : addedWatchpoints s ptr sz (room + 1) false true = [wordWatch s ptr (guardStart ptr sz + 8)] := by
      simp [addedWatchpoints]
    rw [hadd, and_iff_left fun h => absurd h hnot, and_iff_right hnot]
    exact ⟨hinst, hen⟩
  · obtain ⟨b, hb, -⟩ := hfirst.mp rfl
    have hin : ∀ a, Damaged map s ptr bs sz a → guardStart ptr sz ≤ a ∧ a < guardStart ptr sz + 8 := by
      intro a ha
      have hlt : ¬ guardStart ptr sz + 8 ≤ a := fun hge => Bool.false_ne_true (hnext.mpr ⟨a, ha, hge⟩)
      have := ha.bounds hp
      omega
    obtain ⟨hinst, hen⟩ := @watched_one map s ptr bs sz (guardStart ptr sz) hstart more ⟨b, hb⟩ hin
    have hnot : ¬ BothWords map s ptr bs sz := fun h => Bool.false_ne_true (hboth.mp h).2
    have hadd : addedWatchpoints s ptr sz (room + 1) true false = [wordWatch s ptr (guardStart ptr sz)] := by
      simp [addedWatchpoints]
    rw [hadd, and_iff_left fun h => absurd h hnot, and_iff_right hnot]
    exact ⟨hinst, hen⟩
  · have hyes : BothWords map s ptr bs sz := hboth.mpr ⟨rfl, rfl⟩
    obtain ⟨hinst, hen⟩ := @watched_both map s ptr bs sz hp room more hyes
    rw [forall_prop_of_true hyes]
    exact ⟨hinst, iff_of_false hen fun h => h.2.1 hyes⟩

/-- The memory after an object of `sz` bytes has been set up at the start of the heap and a byte stored after it. -/
def storedAfter (bs sz : Nat) (v : UInt8) : SentinelMap :=
  let written := setSentinels emptyMap USER_HEAP_BASE bs sz
  { written with mem := written.mem.set (USER_HEAP_BASE + sz) v }

/-- A zero after an object of 3 bytes in a block of 16. -/
theorem watched_three : Watched emptyMap (storedAfter 16 3 0) USER_HEAP_BASE 16 3 false [] (fun e => e.disabled = false) := by
  have hdamaged : ∀ a, Damaged emptyMap (storedAfter 16 3 0) USER_HEAP_BASE 16 3 a → a = USER_HEAP_BASE + 3 := by
    rintro a ⟨-, hne⟩
    by_contra h
    exact hne (Mem.set_of_ne h)
  refine (watched_iff emptyMap (storedAfter 16 3 0) [] false (by decide) (by decide) (by decide) (by decide +kernel) (by decide)).2.mpr
    ⟨fun a ha => ?_, ?_, rfl⟩
  · rw [hdamaged a ha]
    decide
  · rintro ⟨-, a, ha, hlo⟩
    rw [hdamaged a ha] at hlo
    revert hlo
    decide

/-- An object of 4 bytes, and an integer stored in the 4 bytes after it: none of them is watched. -/
theorem watched_four_not : ¬ ∀ (map s : SentinelMap) (ptr bs sz : Nat) (c : Bool), sz ≤ bs → bs < 2 ^ 64 → ptr % 8 = 0 →
    (s.checkObjectOverflow ptr bs sz c).1 = true → s.wp.length < MAX_WATCHPOINTS → Watched map s ptr bs sz c [] (fun _ => True) := by
  intro h
  let written := setSentinels emptyMap USER_HEAP_BASE 16 4
  let s : SentinelMap := { written with mem := written.mem.write (USER_HEAP_BASE + 4) 4 5 }
  have hdamaged : Damaged emptyMap s USER_HEAP_BASE 16 4 (USER_HEAP_BASE + 4) := by
    refine ⟨(guardByte_iff (by decide)).mpr (.inl (by decide)), ?_⟩
    decide +kernel
  have hevents : installWatchpoints ((s.checkObjectOverflow USER_HEAP_BASE 16 4 false).2.wp ++ []) =
      [⟨USER_HEAP_BASE, HW_BREAKPOINT_LEN_4, false⟩] := by
    decide +kernel
  obtain ⟨i, e, -, -, he, ⟨-, hhi⟩, -⟩ := h emptyMap s USER_HEAP_BASE 16 4 false (by decide) (by decide) (by decide) (by decide +kernel)
    (by decide) _ hdamaged
  rw [hevents, List.getElem?_eq_some_iff] at he
  obtain ⟨hi, rfl⟩ := he
  have h0 : i = 0 := by simpa using hi
  subst h0
  simp only [List.getElem_cons_zero, HW_BREAKPOINT_LEN_4] at hhi
  omega

end XMemory

end DoubleTake
