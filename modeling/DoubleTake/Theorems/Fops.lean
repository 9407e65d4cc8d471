import DoubleTake.Fops
import DoubleTake.Theorems.Deferred

/-! Closes that are put off: when a close that has failed changes nothing, when a commit finds all that it is to close, and when
    it closes the descriptors that have been closed and no others. -/

namespace DoubleTake

open Transition

namespace Fops

namespace State

variable {s s' t : State} {fd : Int} {fp : Option Nat} {c : Call}

/-! ### One close -/

theorem closeFile_standard (unset : Option FileInfo) (fp : Option Nat) (hfd : fd = 0 ∨ fd = 1 ∨ fd = 2) :
    s.closeFile unset fd fp = some (s, 0) := if_pos hfd

theorem closeFile_found {info : FileInfo} (unset : Option FileInfo) (fp : Option Nat) (hfd : ¬ (fd = 0 ∨ fd = 1 ∨ fd = 2))
    (h : s.filesMap.lookup fd = some info) : s.closeFile unset fd fp =
      some (s.recordClose fd fp (if fp ≠ info.origStream then -1 else 0), if fp ≠ info.origStream then -1 else 0) := by
  rw [closeFile, if_neg hfd, isNormalFile, h]
  rfl

theorem closeFile_unset (unset : Option FileInfo) (fp : Option Nat) (hfd : ¬ (fd = 0 ∨ fd = 1 ∨ fd = 2))
    (h : s.filesMap.lookup fd = none) :
    s.closeFile unset fd fp = unset.map fun _ => (s.recordClose fd fp (-1), -1) := by
  rw [closeFile, if_neg hfd, isNormalFile, h]
  cases unset with
  | none => rfl
  | some info =>
    by_cases hfp : fp ≠ info.origStream <;> simp

/-- Whatever is read through the pointer that is not set: a close that has failed leaves the list alone, and the file open after
    the next commit if it was; one that has not failed is on the list. -/
def FailedCloseKeeps (s : State) (fd : Int) (fp : Option Nat) : Prop :=
  ∀ unset s' ret, s.closeFile unset fd fp = some (s', ret) →
    (ret = -1 → s'.fileClose = s.fileClose ∧
      ∀ t, s'.cleanClosedFiles = some t → fd ∉ s.fileClose.map (·.fd) → fd ∈ s.os.fds → fd ∈ t.os.fds) ∧
    (ret = 0 → ¬ (fd = 0 ∨ fd = 1 ∨ fd = 2) → fd ∈ s'.fileClose.map (·.fd))

theorem recordClose_ne (fd : Int) (fp : Option Nat) (ret : Int) : (s.recordClose fd fp ret).fileClose ≠ s.fileClose := by
  intro h
  have hlen := congrArg List.length h
  rw [recordClose, List.length_append, List.length_singleton] at hlen
  omega

/-- A failed close changes nothing only because no close fails: the descriptor is one that is never closed, or it has an entry
    with the stream that is given. -/
theorem failed_close_iff (s : State) (fd : Int) (fp : Option Nat) : s.FailedCloseKeeps fd fp ↔
    (fd = 0 ∨ fd = 1 ∨ fd = 2) ∨ ∃ info, s.filesMap.lookup fd = some info ∧ info.origStream = fp := by
  by_cases hfd : fd = 0 ∨ fd = 1 ∨ fd = 2
  · refine iff_of_true (fun unset s' ret h => ?_) (.inl hfd)
    rw [closeFile_standard unset fp hfd, Option.some.injEq, Prod.mk.injEq] at h
    obtain ⟨rfl, rfl⟩ := h
    exact ⟨fun h => absurd h (by decide), fun _ hnot => absurd hfd hnot⟩
  rw [or_iff_right hfd]
  constructor
  · intro h
    cases hl : s.filesMap.lookup fd with
    | none =>
      have hrun := closeFile_unset (some ⟨fd, none, fp⟩) fp hfd hl
      exact absurd ((h _ _ _ hrun).1 rfl).1 (recordClose_ne fd fp (-1))
    | some info =>
      refine ⟨info, rfl, ?_⟩
      by_contra hne
      have hrun := closeFile_found none fp hfd hl
      rw [if_pos (Ne.symm hne)] at hrun
      exact absurd ((h _ _ _ hrun).1 rfl).1 (recordClose_ne fd fp (-1))
  · rintro ⟨info, hl, rfl⟩ unset s' ret h
    rw [closeFile_found unset _ hfd hl, if_neg (not_not.mpr rfl), Option.some.injEq, Prod.mk.injEq] at h
    obtain ⟨rfl, rfl⟩ := h
    refine ⟨fun h => absurd h (by decide), fun _ _ => ?_⟩
    simp only [recordClose, List.map_append, List.mem_append, List.map_singleton, List.mem_singleton, or_true]

/-- Nothing is open but the standard descriptors. -/
def began : State := ⟨[], [], [], [], 0, ⟨[0, 1, 2], [], [], []⟩, []⟩

theorem began_began : began.Began := ⟨rfl, rfl, rfl, rfl, rfl, List.nodup_nil⟩

/-- The state after a call that is legal and returns. -/
def next (s : State) (c : Call) : Option State := if s.Legal c then s.exec c else none

theorem next_step (h : s.next c = some s') : system.step s c s' := by
  unfold next at h
  split at h
  next hl => exact ⟨hl, h⟩
  next => cases h

/-- A stream on descriptor 3 that is closed with `close`: the call returns -1, and the descriptor is on the list. -/
theorem failed_close_deferred : ¬ ∀ s, Reachable system s → ∀ fd fp, s.FailedCloseKeeps fd fp := by
  intro h
  have hrun : (List.foldlM next began [.fopen (some (1000, 3))]).map (fun s => (s.filesMap, s.fileClose)) =
      some ([(3, ⟨3, some 0, some 1000⟩)], []) := by decide
  obtain ⟨s, hs, heq⟩ := Option.map_eq_some_iff.mp hrun
  obtain ⟨hfiles, -⟩ := Prod.mk.inj heq
  have hr : Reachable system s := .of_foldlM (fun _ _ _ _ hs => next_step hs) (.init began_began) hs
  have hl : s.filesMap.lookup 3 = some ⟨3, some 0, some 1000⟩ := by
    rw [hfiles]
    rfl
  have hclose := closeFile_found none none (by decide) hl
  exact absurd ((h s hr 3 none _ _ _ hclose).1 rfl).1 (recordClose_ne 3 none (-1))

/-! ### What a commit expects -/

/-- What the entries are, and that the list has the descriptors of the closes. -/
structure Wf (s : State) : Prop where
  files : ∀ e ∈ s.filesMap, e.1 ≠ -1 ∧ (e.2.origStream.isSome → e.2.backupStream.isSome)
  dirs : ∀ e ∈ s.dirsMap, e.1 ≠ 0 ∧ e.1 = e.2.dir
  closes : s.fileClose.map (·.fd) = s.closes.map (·.1)

/-- No descriptor and no directory is on its list more often than it has entries. -/
def Drainable (s : State) : Prop :=
  (∀ fd, fd ≠ -1 → (s.closes.map (·.1)).count fd ≤ (s.filesMap.map (·.1)).count fd) ∧
    ∀ dir, dir ≠ 0 → s.dirClose.count dir ≤ (s.dirsMap.map (·.1)).count dir

theorem closeEntries_some {es : List (Int × FileInfo)} (hes : ∀ e ∈ es, e.2.origStream.isSome → e.2.backupStream.isSome)
    (o : Opened) : ∃ o', es.foldlM closeEntry o = some o' := by
  induction es generalizing o with
  | nil => exact ⟨o, rfl⟩
  | cons e es ih =>
    obtain ⟨o', ho⟩ : ∃ o', closeEntry o e = some o' := by
      rw [closeEntry]
      cases horig : e.2.origStream with
      | none => exact ⟨_, rfl⟩
      | some stream => exact ⟨_, if_pos (hes e List.mem_cons_self (by rw [horig]; rfl))⟩
    rw [List.foldlM_cons, ho]
    exact ih (fun e he => hes e (List.mem_cons_of_mem _ he)) o'

theorem closeDirEntries_some {es : List (Nat × DirInfo)} (hes : ∀ e ∈ es, e.1 = e.2.dir) (o : Opened) :
    ∃ o', es.foldlM closeDirEntry o = some o' := by
  induction es generalizing o with
  | nil => exact ⟨o, rfl⟩
  | cons e es ih =>
    rw [List.foldlM_cons, closeDirEntry, if_pos (hes e List.mem_cons_self)]
    exact ih (fun e he => hes e (List.mem_cons_of_mem _ he)) _

/-- What `cleanClosedFiles` does when it returns. -/
theorem cleanClosedFiles_eq_some_iff : s.cleanClosedFiles = some t ↔ ∃ files filesMap os dirs dirsMap os',
    Deferred.cleanClosed (-1) (s.fileClose.map (·.fd)) s.filesMap = some (files, filesMap) ∧
    files.foldlM closeEntry s.os = some os ∧
    Deferred.cleanClosed 0 s.dirClose s.dirsMap = some (dirs, dirsMap) ∧
    dirs.foldlM closeDirEntry os = some os' ∧
    t = { s with filesMap := filesMap, dirsMap := dirsMap, fileClose := [], dirClose := [], os := os' } := by
  rw [cleanClosedFiles]
  simp only [Option.bind_eq_bind, Option.bind_eq_some_iff, Option.some.injEq, Prod.exists]
  constructor
  · rintro ⟨files, filesMap, hf, os, hos, dirs, dirsMap, hd, os', hos', rfl⟩
    exact ⟨files, filesMap, os, dirs, dirsMap, os', hf, hos, hd, hos', rfl⟩
  · rintro ⟨files, filesMap, os, dirs, dirsMap, os', hf, hos, hd, hos', rfl⟩
    exact ⟨files, filesMap, hf, os, hos, dirs, dirsMap, hd, os', hos', rfl⟩

theorem Wf.cleanClosedFiles_isSome_iff (h : s.Wf) : s.cleanClosedFiles.isSome ↔ s.Drainable := by
  rw [Drainable, ← h.closes, ← Deferred.cleanClosed_isSome_iff, ← Deferred.cleanClosed_isSome_iff, Option.isSome_iff_exists]
  simp only [cleanClosedFiles_eq_some_iff]
  constructor
  · rintro ⟨t, files, filesMap, os, dirs, dirsMap, os', hf, -, hd, -⟩
    exact ⟨Option.isSome_of_eq_some hf, Option.isSome_of_eq_some hd⟩
  · rintro ⟨hf, hd⟩
    obtain ⟨⟨files, filesMap⟩, hf⟩ := Option.isSome_iff_exists.mp hf
    obtain ⟨⟨dirs, dirsMap⟩, hd⟩ := Option.isSome_iff_exists.mp hd
    obtain ⟨os, hos⟩ := closeEntries_some (fun e he => (h.files e ((Deferred.cleanClosed_entries hf).1 e he)).2) s.os
    obtain ⟨os', hos'⟩ := closeDirEntries_some (fun e he => (h.dirs e ((Deferred.cleanClosed_entries hd).1 e he)).2) os
    exact ⟨_, files, filesMap, os, dirs, dirsMap, os', hf, hos, hd, hos', rfl⟩

theorem Wf.commit_isSome_iff (h : s.Wf) : s.commit.isSome ↔ s.Drainable := by
  rw [← h.cleanClosedFiles_isSome_iff, commit]
  cases s.cleanClosedFiles <;> rfl

theorem Wf.commit (h : s.Wf) (hc : s.commit = some t) : t.Wf := by
  rw [State.commit] at hc
  obtain ⟨s₁, hclean, hc⟩ := Option.bind_eq_some_iff.mp hc
  cases hc
  obtain ⟨files, filesMap, os, dirs, dirsMap, os', hf, -, hd, -, rfl⟩ := cleanClosedFiles_eq_some_iff.mp hclean
  exact ⟨fun e he => h.files e ((Deferred.cleanClosed_entries hf).2 e he),
    fun e he => h.dirs e ((Deferred.cleanClosed_entries hd).2 e he), rfl⟩

/-- What is open does not matter. -/
theorem Wf.setOs (h : s.Wf) (os : Opened) : Wf { s with os := os } := ⟨h.files, h.dirs, h.closes⟩

theorem Wf.saveFd (h : s.Wf) (fd : Int) (file : Option Nat) : (s.saveFd fd file).Wf := by
  rw [State.saveFd]
  split
  next hfd =>
    refine ⟨fun e he => ?_, h.dirs, h.closes⟩
    rcases List.mem_append.mp he with he | he
    · exact h.files e he
    · cases List.mem_singleton.mp he
      exact ⟨hfd, fun hs => by rw [Option.isSome_map]; exact hs⟩
  next => exact h

theorem Wf.saveDir (h : s.Wf) (dir : Nat) : (s.saveDir dir).Wf := by
  rw [State.saveDir]
  split
  next hdir =>
    refine ⟨h.files, fun e he => ?_, h.closes⟩
    rcases List.mem_append.mp he with he | he
    · exact h.dirs e he
    · cases List.mem_singleton.mp he
      exact ⟨hdir, rfl⟩
  next => exact h

theorem saveDupFd_isSome {oldfd : Int} (newfd : Int) (h : s.isNormalFile oldfd = true) : (s.saveDupFd oldfd newfd).isSome := by
  obtain ⟨info, hinfo⟩ := Option.isSome_iff_exists.mp h
  rw [saveDupFd, hinfo]
  split <;> rfl

theorem Wf.saveDupFd (h : s.Wf) {oldfd newfd : Int} (hd : s.saveDupFd oldfd newfd = some t) : t.Wf := by
  rw [State.saveDupFd] at hd
  split at hd
  next hfd =>
    obtain ⟨info, hinfo, hd⟩ := Option.bind_eq_some_iff.mp hd
    cases hd
    refine ⟨fun e he => ?_, h.dirs, h.closes⟩
    rcases List.mem_append.mp he with he | he
    · exact h.files e he
    · cases List.mem_singleton.mp he
      refine ⟨hfd, fun hs => ?_⟩
      rw [Option.isSome_map]
      exact (h.files _ (Deferred.mem_of_lookup_eq hinfo)).2 hs
  next =>
    cases hd
    exact h

theorem Wf.recordClose (h : s.Wf) (fd : Int) (fp : Option Nat) (ret : Int) : (s.recordClose fd fp ret).Wf := by
  refine ⟨h.files, h.dirs, ?_⟩
  simp only [State.recordClose, List.map_append, h.closes, List.map_singleton]

theorem closeFile_isSome_iff : (s.closeFile none fd fp).isSome ↔ (fd = 0 ∨ fd = 1 ∨ fd = 2) ∨ s.isNormalFile fd = true := by
  by_cases hfd : fd = 0 ∨ fd = 1 ∨ fd = 2
  · rw [closeFile_standard none fp hfd]
    exact iff_of_true rfl (.inl hfd)
  rw [or_iff_right hfd, isNormalFile]
  cases hl : s.filesMap.lookup fd with
  | none =>
    rw [closeFile_unset none fp hfd hl]
    rfl
  | some info => rw [closeFile_found none fp hfd hl, Option.isSome_some, Option.isSome_some]

/-- A close that returns has put nothing on the list, or what it has been given, with the entry found. -/
theorem closeFile_cases {ret : Int} (h : s.closeFile none fd fp = some (t, ret)) :
    t = s ∨ s.isNormalFile fd = true ∧ t = s.recordClose fd fp ret := by
  by_cases hfd : fd = 0 ∨ fd = 1 ∨ fd = 2
  · rw [closeFile_standard none fp hfd] at h
    cases h
    exact .inl rfl
  cases hl : s.filesMap.lookup fd with
  | none =>
    rw [closeFile_unset none fp hfd hl] at h
    cases h
  | some info =>
    rw [closeFile_found none fp hfd hl] at h
    cases h
    exact .inr ⟨Option.isSome_of_eq_some hl, rfl⟩

theorem Wf.closeFile (h : s.Wf) (hc : (s.closeFile none fd fp).map Prod.fst = some t) : t.Wf := by
  obtain ⟨⟨t', ret⟩, hrun, rfl⟩ := Option.map_eq_some_iff.mp hc
  rcases closeFile_cases hrun with rfl | ⟨-, rfl⟩
  · exact h
  · exact h.recordClose fd fp ret

theorem closeDir_eq (dir : Nat) : (s.closeDir dir).map Prod.fst =
    if dir = 0 then none else (s.dirsMap.lookup dir).map fun _ => { s with dirClose := s.dirClose ++ [dir] } := by
  rw [closeDir]
  split
  · rfl
  · cases s.dirsMap.lookup dir <;> rfl

/-- What the call closes has a record. -/
def Finds (s : State) : Call → Prop
  | .fclose fp => ∀ fd, s.os.streams.lookup fp = some fd → (fd = 0 ∨ fd = 1 ∨ fd = 2) ∨ s.isNormalFile fd = true
  | .closedir dir => dir ∈ s.dirsMap.map (·.1)
  | .open _ | .fopen _ | .dup _ _ | .opendir _ | .close _ | .commit => True

/-- What a call needs: a record for what it closes, and for the call that ends the epoch no more closes than entries. -/
def Careful (s : State) (c : Call) : Prop := s.Finds c ∧ (s.endsEpoch c = true → s.Drainable)

theorem careful_of_not_ends (h : s.endsEpoch c = false) : s.Careful c ↔ s.Finds c :=
  and_iff_left fun he => absurd (h.symm.trans he) Bool.false_ne_true

theorem careful_of_ends (h : s.endsEpoch c = true) (hf : s.Finds c) : s.Careful c ↔ s.Drainable :=
  ⟨fun hc => hc.2 h, fun hd => ⟨hf, fun _ => hd⟩⟩

theorem Wf.exec_isSome_iff (h : s.Wf) (hl : s.Legal c) : (s.exec c).isSome ↔ s.Careful c := by
  have hends : ∀ f : State → State, (s.commit >>= fun s => some (f s)).isSome ↔ s.Drainable := by
    intro f
    rw [← h.commit_isSome_iff]
    cases s.commit <;> rfl
  cases c with
  | «open» ret =>
    rw [careful_of_not_ends rfl]
    exact iff_of_true rfl trivial
  | fopen file =>
    rw [careful_of_not_ends rfl]
    cases file <;> exact iff_of_true rfl trivial
  | opendir dir =>
    rw [careful_of_not_ends rfl]
    exact iff_of_true rfl trivial
  | dup oldfd ret =>
    have hfinds : s.Finds (.dup oldfd ret) := trivial
    rw [exec]
    cases hn : s.isNormalFile oldfd with
    | true =>
      rw [careful_of_not_ends (by rw [endsEpoch, hn, Bool.not_true])]
      exact iff_of_true (saveDupFd_isSome ret hn) hfinds
    | false =>
      rw [careful_of_ends (by rw [endsEpoch, hn, Bool.not_false]) hfinds]
      exact hends _
  | close fd =>
    have hfinds : s.Finds (.close fd) := trivial
    rw [exec]
    cases hn : s.isNormalFile fd with
    | true =>
      have hclose : (s.closeFile none fd none).isSome := closeFile_isSome_iff.mpr (.inr hn)
      rw [careful_of_not_ends (by rw [endsEpoch, hn, Bool.not_true]), if_pos rfl, Option.isSome_map, hclose]
      exact iff_of_true rfl hfinds
    | false =>
      rw [careful_of_ends (by rw [endsEpoch, hn, Bool.not_false]) hfinds]
      exact hends _
  | fclose fp =>
    obtain ⟨fd, hfd⟩ : ∃ fd, s.os.streams.lookup fp = some fd :=
      Option.ne_none_iff_exists'.mp fun hnone => Deferred.lookup_eq_none_iff.mp hnone hl
    rw [careful_of_not_ends rfl, exec, Finds, hfd, Option.bind_eq_bind, Option.bind_some, Option.isSome_map, closeFile_isSome_iff]
    simp only [Option.some.injEq, forall_eq']
  | closedir dir =>
    rw [careful_of_not_ends rfl, exec, Finds, closeDir_eq]
    by_cases hdir : dir ∈ s.dirsMap.map (·.1)
    · obtain ⟨e, he, rfl⟩ := List.mem_map.mp hdir
      obtain ⟨info, hinfo⟩ : ∃ info, s.dirsMap.lookup e.1 = some info :=
        Option.ne_none_iff_exists'.mp fun hnone => Deferred.lookup_eq_none_iff.mp hnone hdir
      rw [if_neg (h.dirs e he).1, hinfo]
      exact iff_of_true rfl hdir
    · refine iff_of_false ?_ hdir
      split
      · exact Bool.false_ne_true
      · rw [Deferred.lookup_eq_none_iff.mpr hdir]
        exact Bool.false_ne_true
  | commit =>
    have hfinds : s.Finds .commit := trivial
    rw [careful_of_ends rfl hfinds]
    exact h.commit_isSome_iff

theorem Wf.exec (h : s.Wf) (hs : s.exec c = some t) : t.Wf := by
  cases c with
  | «open» ret =>
    cases hs
    exact (h.setOs _).saveFd ret none
  | fopen file =>
    cases file with
    | none =>
      cases hs
      exact h
    | some file =>
      cases hs
      exact (h.setOs _).saveFd file.2 (some file.1)
  | opendir dir =>
    cases hs
    exact (h.setOs _).saveDir dir
  | dup oldfd ret =>
    rw [State.exec] at hs
    split at hs
    · exact (h.setOs _).saveDupFd hs
    · obtain ⟨s₁, hc, hs⟩ := Option.bind_eq_some_iff.mp hs
      cases hs
      exact (h.commit hc).setOs _
  | close fd =>
    rw [State.exec] at hs
    split at hs
    · exact h.closeFile hs
    · obtain ⟨s₁, hc, hs⟩ := Option.bind_eq_some_iff.mp hs
      cases hs
      exact (h.commit hc).setOs _
  | fclose fp =>
    obtain ⟨fd, -, hs⟩ := Option.bind_eq_some_iff.mp hs
    exact h.closeFile hs
  | closedir dir =>
    rw [State.exec, closeDir_eq] at hs
    split at hs
    · cases hs
    · obtain ⟨info, -, rfl⟩ := Option.map_eq_some_iff.mp hs
      exact ⟨h.files, h.dirs, h.closes⟩
  | commit => exact h.commit hs

theorem Began.wf (h : s.Began) : s.Wf := by
  refine ⟨?_, ?_, ?_⟩
  · rw [h.filesMap]
    exact fun e he => absurd he List.not_mem_nil
  · rw [h.dirsMap]
    exact fun e he => absurd he List.not_mem_nil
  · rw [h.fileClose, h.closes]
    rfl

theorem reachable_wf (h : Reachable system s) : s.Wf :=
  Reachable.invariant (S := system) (P := Wf) (fun _ hb => hb.wf) (fun _ _ _ hi hs => hi.exec hs.2) h

/-- The calls are legal, one after the other. -/
def LegalRun (s : State) : List Call → Prop
  | [] => True
  | c :: cs => s.Legal c ∧ ∀ t, s.exec c = some t → t.LegalRun cs

/-- Each call has what it needs. -/
def CarefulRun (s : State) : List Call → Prop
  | [] => True
  | c :: cs => s.Careful c ∧ ∀ t, s.exec c = some t → t.CarefulRun cs

theorem Wf.run_isSome_iff (h : s.Wf) {cs : List Call} (hl : s.LegalRun cs) : (cs.foldlM State.exec s).isSome ↔ s.CarefulRun cs := by
  induction cs generalizing s with
  | nil => exact iff_of_true rfl trivial
  | cons c cs ih =>
    have hcall := h.exec_isSome_iff hl.1
    rw [List.foldlM_cons, CarefulRun, ← hcall]
    cases hs : s.exec c with
    | none => exact iff_of_false Bool.false_ne_true fun hc => absurd hc.1 Bool.false_ne_true
    | some t =>
      refine (ih (h.exec hs) (hl.2 t hs)).trans ⟨fun hc => ⟨rfl, fun t' ht' => ?_⟩, fun hc => hc.2 t rfl⟩
      cases ht'
      exact hc

theorem Wf.run (h : s.Wf) {cs : List Call} (hs : cs.foldlM State.exec s = some t) : t.Wf := by
  induction cs generalizing s with
  | nil =>
    cases hs
    exact h
  | cons c cs ih =>
    rw [List.foldlM_cons] at hs
    obtain ⟨s₁, hc, hs⟩ := Option.bind_eq_some_iff.mp hs
    exact ih (h.exec hc) hs

/-- The calls of an epoch and the commit after them. -/
def runCommit (s : State) (cs : List Call) : Option State := do
  let t ← cs.foldlM exec s
  t.commit

/-- Calls and the commit after them go through exactly if each `fclose` and `closedir` is of something that has an entry, and
    whenever an epoch ends nothing has been closed more often than it has entries. -/
theorem commit_branches_iff (h : Reachable system s) {cs : List Call} (hl : s.LegalRun cs) :
    (∃ t, s.runCommit cs = some t) ↔ s.CarefulRun cs ∧ ∀ t, cs.foldlM exec s = some t → t.Drainable := by
  have hwf := reachable_wf h
  rw [← Option.isSome_iff_exists, runCommit, ← hwf.run_isSome_iff hl]
  cases hs : cs.foldlM exec s with
  | none => exact iff_of_false Bool.false_ne_true fun hc => absurd hc.1 Bool.false_ne_true
  | some t =>
    have ht := (hwf.run hs).commit_isSome_iff
    simpa only [Option.bind_eq_bind, Option.bind_some, Option.isSome_some, true_and, Option.some.injEq, forall_eq'] using ht

theorem legalRun_of_next {cs : List Call} (h : cs.foldlM next s = some t) : s.LegalRun cs := by
  induction cs generalizing s with
  | nil => trivial
  | cons c cs ih =>
    rw [List.foldlM_cons] at h
    obtain ⟨s₁, hc, h⟩ := Option.bind_eq_some_iff.mp h
    obtain ⟨hlegal, hexec⟩ := next_step hc
    refine ⟨hlegal, fun s₂ hs => ?_⟩
    rw [hexec, Option.some.injEq] at hs
    exact ih (hs ▸ h)

theorem commit_branches_one : ∃ t, began.runCommit [.open 3, .close 3] = some t := by
  obtain ⟨t, ht⟩ := Option.isSome_iff_exists.mp (show (List.foldlM next began [.open 3, .close 3]).isSome = true by decide)
  refine (commit_branches_iff (.init began_began) (legalRun_of_next ht)).mpr ⟨?_, fun u hu => ?_⟩
  · refine ⟨⟨trivial, fun he => absurd he Bool.false_ne_true⟩, fun s₁ h₁ => ?_⟩
    cases h₁
    exact ⟨⟨trivial, fun he => absurd he (by decide)⟩, fun _ _ => trivial⟩
  · cases hu
    exact ⟨fun fd _ => Nat.le_refl _, fun dir _ => Nat.le_refl _⟩

/-- A descriptor that is closed twice in an epoch: the commit finds no entry for the second close. -/
theorem closed_twice_asserts : ¬ ∀ s, Reachable system s → ∀ cs, s.LegalRun cs → ∃ t, s.runCommit cs = some t := by
  intro h
  obtain ⟨t, ht⟩ := Option.isSome_iff_exists.mp (show (List.foldlM next began [.open 3, .close 3, .close 3]).isSome = true by decide)
  obtain ⟨t', ht'⟩ := h began (.init began_began) _ (legalRun_of_next ht)
  have hnone : began.runCommit [.open 3, .close 3, .close 3] = none := by decide
  rw [hnone] at ht'
  cases ht'

end State

end Fops

end DoubleTake
