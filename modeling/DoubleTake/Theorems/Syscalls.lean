import DoubleTake.Lib.Except
import DoubleTake.Syscalls

/-! Record and replay of the system calls: which epochs replay with the answers of the recorded run. -/

namespace DoubleTake
namespace Sys

variable {s t T T' : Sys} {c : Call} {cs : List Call} {a b : Answer}

/-- The replay gives this call the answer of the recorded run. It depends on the call, on what the operating system
    answered, on the files known before the call and on the slot of the log that the call gets. -/
def Replayable (s : Sys) : Call → Prop
  | .close fd => fd ≠ 0 ∧ fd ≠ 1 ∧ fd ≠ 2
  | .dup2 _ _ _ => False
  | .fopen ret fileno =>
    ret ≠ 0 ∧ fileno ≠ -1 ∧ ∀ info, s.filesMap.lookup fileno = some info → info.origStream = ret
  | .fopen64 ret fileno =>
    ret ≠ 0 → fileno ≠ -1 ∧ ∀ info, s.filesMap.lookup fileno = some info → info.origStream = ret
  | .fclose _ fileno => fileno ≠ 0 ∧ fileno ≠ 1 ∧ fileno ≠ 2
  | .time t ret => ∀ old, t = some old → ret = -1 ∨ old = ret
  | .times buf ret _ => ∀ old, buf = some old → ret = -1 → (s.log.entries s.log.cur).buf = old
  | _ => True

/-- Every call of the sequence is replayable where it is made. -/
def AllReplayable (s : Sys) : List Call → Prop
  | [] => True
  | c :: cs => s.Replayable c ∧ ∀ a t, s.recordCall c = .ok (a, t) → t.AllReplayable cs

/-! ### What recording adds -/

/-- Files, directories and entries are added, and what is there stays. -/
structure Grows (s t : Sys) : Prop where
  files : ∀ fd info, s.filesMap.lookup fd = some info → t.filesMap.lookup fd = some info
  dirs : ∀ p d, s.findDir p = some d → t.findDir p = some d
  cur : s.log.cur ≤ t.log.cur
  entries : ∀ i < s.log.cur, t.log.entries i = s.log.entries i

theorem Grows.refl (s : Sys) : Grows s s := ⟨fun _ _ h => h, fun _ _ h => h, Nat.le_refl _, fun _ _ => rfl⟩

theorem Grows.trans {u : Sys} (h : Grows s t) (h' : Grows t u) : Grows s u where
  files fd info hl := h'.files fd info (h.files fd info hl)
  dirs p d hl := h'.dirs p d (h.dirs p d hl)
  cur := Nat.le_trans h.cur h'.cur
  entries i hi := (h'.entries i (Nat.lt_of_lt_of_le hi h.cur)).trans (h.entries i hi)

theorem lookup_append {α β : Type} [BEq α] {l l' : List (α × β)} {k : α} {v : β} (h : l.lookup k = some v) :
    (l ++ l').lookup k = some v := by
  rw [List.lookup_append, h]
  rfl

/-- The entry that a recorded call has written into its slot. -/
structure Logged (s : Sys) (sc : RecordSyscall) (fill : SyscallEntry → SyscallEntry) (t : Sys) : Prop where
  grows : Grows s t
  cur : t.log.cur = s.log.cur + 1
  entry : t.log.entries s.log.cur = fill { s.log.entries s.log.cur with syscall := sc }

theorem record_spec {sc : RecordSyscall} {fill : SyscallEntry → SyscallEntry} (h : s.record sc fill = .ok t) :
    Logged s sc fill t ∧ t.filesMap = s.filesMap ∧ t.dirsMap = s.dirsMap := by
  obtain ⟨log, halloc, ht⟩ := Except.of_bind_ok h
  cases ht
  rw [RecordEntries.alloc] at halloc
  split at halloc
  · cases halloc
    refine ⟨⟨⟨fun _ _ h => h, fun _ _ h => h, Nat.le_succ _, fun i hi => ?_⟩, rfl, Function.update_self ..⟩, rfl, rfl⟩
    exact Function.update_of_ne (Nat.ne_of_lt hi) _ _
  · cases halloc

theorem Logged.addFile {sc : RecordSyscall} {fill : SyscallEntry → SyscallEntry} (h : Logged s sc fill t)
    (l : List (Int × FileInfo)) : Logged s sc fill { t with filesMap := t.filesMap ++ l } :=
  ⟨⟨fun fd info hl => lookup_append (h.grows.files fd info hl), h.grows.dirs, h.grows.cur, h.grows.entries⟩, h.cur, h.entry⟩

theorem Logged.addDir {sc : RecordSyscall} {fill : SyscallEntry → SyscallEntry} (h : Logged s sc fill t)
    (l : List DirInfo) : Logged s sc fill { t with dirsMap := t.dirsMap ++ l } := by
  refine ⟨⟨h.grows.files, fun p d hl => ?_, h.grows.cur, h.grows.entries⟩, h.cur, h.entry⟩
  have hold : t.dirsMap.find? (·.dir == p) = some d := h.grows.dirs p d hl
  rw [findDir, List.find?_append, hold]
  rfl

theorem saveFd_spec {fd : Int} {file : Nat} (h : s.saveFd fd file = .ok t) :
    Logged s .fileOpen (fun e => { e with fd := fd }) t ∧ (fd ≠ -1 → t.filesMap = s.filesMap ++ [(fd, ⟨fd, file⟩)]) := by
  obtain ⟨u, hrec, hu⟩ := Except.of_bind_ok h
  obtain ⟨hlog, hfiles, -⟩ := record_spec hrec
  split at hu
  · cases hu
    exact ⟨hlog.addFile _, fun _ => by rw [hfiles]⟩
  next hfd =>
    cases hu
    exact ⟨hlog, fun h => absurd h hfd⟩

theorem saveDupFd_spec {oldfd newfd : Int} (h : s.saveDupFd oldfd newfd = .ok t) :
    Logged s .fileDup (fun e => { e with fd := newfd }) t := by
  obtain ⟨u, hrec, hu⟩ := Except.of_bind_ok h
  obtain ⟨hlog, -, -⟩ := record_spec hrec
  split at hu
  · split at hu
    · cases hu
      exact hlog.addFile _
    · cases hu
  · cases hu
    exact hlog

theorem saveDir_spec {dir : Nat} (h : s.saveDir dir = .ok t) :
    Logged s .dirOpen (fun e => { e with dir := dir }) t ∧ (dir ≠ 0 → t.dirsMap = s.dirsMap ++ [⟨dir⟩]) := by
  obtain ⟨u, hrec, hu⟩ := Except.of_bind_ok h
  obtain ⟨hlog, -, hdirs⟩ := record_spec hrec
  split at hu
  · cases hu
    exact ⟨hlog.addDir _, fun _ => by rw [hdirs]⟩
  next hdir =>
    cases hu
    exact ⟨hlog, fun h => absurd h hdir⟩

theorem closeFile_spec {fd ret : Int} {fp : Nat} (h : s.closeFile fd fp = .ok (ret, t)) :
    ((fd = 0 ∨ fd = 1 ∨ fd = 2) ∧ t = s) ∨
      (fd ≠ 0 ∧ fd ≠ 1 ∧ fd ≠ 2) ∧ Logged s .fileClose (fun e => { e with fd := fd, ret := ret }) t := by
  rw [closeFile] at h
  split at h
  next hstd =>
    cases h
    exact .inl ⟨hstd, rfl⟩
  next hstd =>
    split at h
    · cases h
    · obtain ⟨u, hrec, hu⟩ := Except.of_bind_ok h
      cases hu
      exact .inr ⟨by simpa only [not_or] using hstd, (record_spec hrec).1⟩

theorem closeDir_spec {dir : Nat} {ret : Int} (h : s.closeDir dir = .ok (ret, t)) :
    Logged s .dirClose (fun e => { e with dir := dir }) t ∧ dir ≠ 0 ∧
      ∃ d, s.findDir dir = some d ∧ ret = if dir ≠ d.dir then -1 else 0 := by
  rw [closeDir] at h
  split at h
  · cases h
  next hdir =>
    split at h
    · cases h
    next d hd =>
      obtain ⟨u, hrec, hu⟩ := Except.of_bind_ok h
      cases hu
      exact ⟨(record_spec hrec).1, hdir, d, hd, rfl⟩

/-! ### The replay of one call -/

/-- The state whose log is read from the entry `n` on. -/
def readFrom (T : Sys) (n : Nat) : Sys := { T with log := { T.log with iter := n } }

variable {n : Nat} {sc : RecordSyscall} {fill : SyscallEntry → SyscallEntry}

theorem retrieve_ok {e : SyscallEntry} (h : (T.readFrom n).retrieve sc = .ok (e, T')) :
    e = T.log.entries n ∧ e.syscall = sc ∧ T' = T.readFrom (n + 1) := by
  obtain ⟨⟨e', log⟩, hr, hT⟩ := Except.of_bind_ok h
  cases hT
  rw [RecordEntries.retrieveEntry] at hr
  split at hr
  · split at hr
    next hsc =>
      cases hr
      exact ⟨rfl, hsc, rfl⟩
    · cases hr
  · cases hr

/-- The entry of a recorded call is read back. -/
theorem Logged.retrieve (h : Logged s sc fill t) (hT : Grows t T) (hfill : ∀ e, (fill e).syscall = e.syscall) :
    (T.readFrom s.log.cur).retrieve sc = .ok (fill { s.log.entries s.log.cur with syscall := sc }, T.readFrom (s.log.cur + 1)) := by
  have hcur := hT.cur
  rw [h.cur] at hcur
  have hentry : T.log.entries s.log.cur = fill { s.log.entries s.log.cur with syscall := sc } :=
    (hT.entries _ (by rw [h.cur]; exact Nat.lt_succ_self _)).trans h.entry
  have hsc : (T.log.entries s.log.cur).syscall = sc := by rw [hentry, hfill]
  have hlt : s.log.cur < T.log.cur := hcur
  have hr : (T.readFrom s.log.cur).log.retrieveEntry sc = .ok (T.log.entries s.log.cur, (T.readFrom (s.log.cur + 1)).log) :=
    (if_pos hlt).trans (if_pos hsc)
  rw [Sys.retrieve, Except.bind_of_ok hr, hentry]
  rfl

/-! Each function that the replay calls reads one entry. -/

theorem getFdAtOpen_ok {fd : Int} (h : (T.readFrom n).getFdAtOpen = .ok (fd, T')) :
    (T.log.entries n).syscall = .fileOpen ∧ fd = (T.log.entries n).fd ∧ T' = T.readFrom (n + 1) := by
  obtain ⟨⟨e, u⟩, hr, hu⟩ := Except.of_bind_ok h
  obtain ⟨rfl, hsc, rfl⟩ := retrieve_ok hr
  dsimp only at hu
  split at hu
  · cases hu
  · cases hu
    exact ⟨hsc, rfl, rfl⟩

theorem getDupFd_ok {fd : Int} (h : (T.readFrom n).getDupFd = .ok (fd, T')) : T' = T.readFrom (n + 1) := by
  obtain ⟨⟨e, u⟩, hr, hu⟩ := Except.of_bind_ok h
  cases hu
  exact (retrieve_ok hr).2.2

theorem getClose_ok {ret : Int} (h : (T.readFrom n).getClose = .ok (ret, T')) : T' = T.readFrom (n + 1) := by
  obtain ⟨⟨e, u⟩, hr, hu⟩ := Except.of_bind_ok h
  cases hu
  exact (retrieve_ok hr).2.2

theorem getDirAtOpen_ok {ptr dir : Nat} (h : (T.readFrom n).getDirAtOpen ptr = .ok (dir, T')) : T' = T.readFrom (n + 1) := by
  obtain ⟨⟨e, u⟩, hr, hu⟩ := Except.of_bind_ok h
  obtain ⟨-, -, rfl⟩ := retrieve_ok hr
  dsimp only at hu
  split at hu
  · split at hu
    · split at hu <;> cases hu
      rfl
    · cases hu
  · cases hu
    rfl

theorem getCloseDir_ok {dir : Nat} {ret : Int} (h : (T.readFrom n).getCloseDir dir = .ok (ret, T')) :
    T' = T.readFrom (n + 1) := by
  rw [getCloseDir] at h
  split at h
  · cases h
  · obtain ⟨⟨e, u⟩, hr, hu⟩ := Except.of_bind_ok h
    cases hu
    exact (retrieve_ok hr).2.2

theorem getFopen_ok {ptr ret : Nat} (h : (T.readFrom n).getFopen ptr = .ok (ret, T')) :
    T' = T.readFrom (n + 1) ∧
      ((T.log.entries n).fd = -1 ∧ ret = 0 ∨
        (T.log.entries n).fd ≠ -1 ∧ ∃ info, T.filesMap.lookup (T.log.entries n).fd = some info ∧ ptr = info.origStream) := by
  obtain ⟨⟨fd, u⟩, hr, hu⟩ := Except.of_bind_ok h
  obtain ⟨-, rfl, rfl⟩ := getFdAtOpen_ok hr
  dsimp only at hu
  split at hu
  next hfd =>
    cases hu
    exact ⟨rfl, .inl ⟨hfd, rfl⟩⟩
  next hfd =>
    split at hu
    next info hinfo =>
      split at hu
      next hptr =>
        cases hu
        exact ⟨rfl, .inr ⟨hfd, info, hinfo, hptr.1⟩⟩
      · cases hu
    · cases hu

/-- Each call of the replay reads one entry. -/
theorem replayCall_ok (h : (T.readFrom n).replayCall c = .ok (a, T')) : T' = T.readFrom (n + 1) := by
  cases c with
  | «open» ret | fcntl ret =>
    obtain ⟨⟨fd, u⟩, hr, hu⟩ := Except.of_bind_ok h
    cases hu
    exact (getFdAtOpen_ok hr).2.2
  | close fd =>
    rw [replayCall] at h
    split at h
    · obtain ⟨⟨ret, u⟩, hr, hu⟩ := Except.of_bind_ok h
      cases hu
      exact getClose_ok hr
    · cases h
  | dup oldfd ret =>
    rw [replayCall] at h
    split at h
    · obtain ⟨⟨fd, u⟩, hr, hu⟩ := Except.of_bind_ok h
      cases hu
      exact getDupFd_ok hr
    · cases h
  | dup2 oldfd newfd ret =>
    rw [replayCall] at h
    split at h
    · obtain ⟨⟨fd, u⟩, hr, hu⟩ := Except.of_bind_ok h
      cases hu
      exact (getFdAtOpen_ok hr).2.2
    · cases h
  | opendir ret =>
    obtain ⟨⟨dir, u⟩, hr, hu⟩ := Except.of_bind_ok h
    cases hu
    exact getDirAtOpen_ok hr
  | closedir dir =>
    obtain ⟨⟨ret, u⟩, hr, hu⟩ := Except.of_bind_ok h
    cases hu
    exact getCloseDir_ok hr
  | fopen ret fileno | fopen64 ret fileno =>
    obtain ⟨⟨file, u⟩, hr, hu⟩ := Except.of_bind_ok h
    cases hu
    exact (getFopen_ok hr).1
  | fclose fp fileno =>
    rw [replayCall] at h
    split at h
    · cases h
    · obtain ⟨⟨ret, u⟩, hr, hu⟩ := Except.of_bind_ok h
      cases hu
      exact getClose_ok hr
  | mmap ret | munmap start length | time t ret | gettimeofday tv tz ret tvalue tzone | times buf ret value =>
    obtain ⟨⟨e, u⟩, hr, hu⟩ := Except.of_bind_ok h
    cases hu
    exact (retrieve_ok hr).2.2

theorem Grows.isNormalFile (h : Grows s T) {fd : Int} (hfd : s.isNormalFile fd = true) (n : Nat) :
    (T.readFrom n).isNormalFile fd = true := by
  obtain ⟨info, hinfo⟩ := Option.isSome_iff_exists.mp hfd
  exact Option.isSome_iff_exists.mpr ⟨info, h.files fd info hinfo⟩

theorem Logged.getClose {fd ret : Int} (h : Logged s .fileClose (fun e => { e with fd := fd, ret := ret }) t)
    (hT : Grows t T) : (T.readFrom s.log.cur).getClose = .ok (ret, T.readFrom (s.log.cur + 1)) := by
  rw [Sys.getClose, Except.bind_of_ok (h.retrieve hT fun _ => rfl)]

/-- The descriptor that a recorded call has saved is found again. -/
theorem Logged.getFdAtOpen {fd : Int} (h : Logged s .fileOpen (fun e => { e with fd := fd }) t) (hT : Grows t T)
    (hfd : fd ≠ -1 → ∃ info, T.filesMap.lookup fd = some info) :
    (T.readFrom s.log.cur).getFdAtOpen = .ok (fd, T.readFrom (s.log.cur + 1)) := by
  rw [Sys.getFdAtOpen, Except.bind_of_ok (h.retrieve hT fun _ => rfl)]
  refine if_neg fun hnone => ?_
  obtain ⟨info, hinfo⟩ := hfd hnone.1
  have hlookup : (T.readFrom (s.log.cur + 1)).filesMap.lookup fd = some info := hinfo
  rw [hlookup] at hnone
  exact absurd hnone.2 (by simp)

/-- Saving a descriptor makes it known, with the stream of its first entry. -/
theorem saveFd_lookup {fd : Int} {file : Nat} (h : s.saveFd fd file = .ok t) (hT : Grows t T) (hfd : fd ≠ -1) :
    T.filesMap.lookup fd = some ((s.filesMap.lookup fd).getD ⟨fd, file⟩) := by
  have hfiles := (saveFd_spec h).2 hfd
  refine hT.files fd _ ?_
  rw [hfiles, List.lookup_append]
  cases s.filesMap.lookup fd with
  | none => simp
  | some info => rfl

theorem saveFd_getFdAtOpen {fd : Int} {file : Nat} (h : s.saveFd fd file = .ok t) (hT : Grows t T) :
    (T.readFrom s.log.cur).getFdAtOpen = .ok (fd, T.readFrom (s.log.cur + 1)) :=
  (saveFd_spec h).1.getFdAtOpen hT fun hfd => ⟨_, saveFd_lookup h hT hfd⟩

theorem saveDir_getDirAtOpen {dir : Nat} (h : s.saveDir dir = .ok t) (hT : Grows t T) :
    (T.readFrom s.log.cur).getDirAtOpen dir = .ok (dir, T.readFrom (s.log.cur + 1)) := by
  obtain ⟨hlog, hdirs⟩ := saveDir_spec h
  rw [getDirAtOpen, Except.bind_of_ok (hlog.retrieve hT fun _ => rfl)]
  by_cases h0 : dir = 0
  · exact if_neg (not_not.mpr h0)
  · have hknown : (t.findDir dir).isSome = true := by
      rw [findDir, hdirs h0, List.find?_isSome]
      exact ⟨⟨dir⟩, List.mem_append_right _ List.mem_cons_self, beq_self_eq_true dir⟩
    obtain ⟨d, hd⟩ := Option.isSome_iff_exists.mp hknown
    have hdir : d.dir = dir := by simpa using List.find?_some hd
    have hlookup : (T.readFrom (s.log.cur + 1)).findDir dir = some d := hT.dirs dir d hd
    simp only [hlookup, hdir, h0, ne_eq, not_false_eq_true, and_self, if_true]

theorem closeDir_getCloseDir {dir : Nat} {ret : Int} (h : s.closeDir dir = .ok (ret, t)) (hT : Grows t T) :
    (T.readFrom s.log.cur).getCloseDir dir = .ok (ret, T.readFrom (s.log.cur + 1)) := by
  obtain ⟨hlog, h0, d, hd, hret⟩ := closeDir_spec h
  have hlookup : (T.readFrom s.log.cur).findDir dir = some d := (hlog.grows.trans hT).dirs dir d hd
  rw [getCloseDir]
  simp only [hlookup]
  rw [Except.bind_of_ok (hlog.retrieve hT fun _ => rfl), hret]
  simp only [h0, false_or]

/-- A stream is found again when it is the one that the map has for its descriptor. -/
theorem saveFd_getFopen {fileno : Int} {file : Nat} (h : s.saveFd fileno file = .ok t) (hT : Grows t T) (hfile : file ≠ 0) :
    (T.readFrom s.log.cur).getFopen file = .ok (file, T.readFrom (s.log.cur + 1)) ↔
      fileno ≠ -1 ∧ ∀ info, s.filesMap.lookup fileno = some info → info.origStream = file := by
  constructor
  · intro hget
    have hfd : (T.log.entries s.log.cur).fd = fileno := by
      obtain ⟨⟨fd, u⟩, hr, -⟩ := Except.of_bind_ok hget
      have hsaved := saveFd_getFdAtOpen h hT
      rw [hr, Except.ok.injEq, Prod.mk.injEq] at hsaved
      rw [← (getFdAtOpen_ok hr).2.1, hsaved.1]
    rcases (getFopen_ok hget).2 with ⟨-, hnull⟩ | ⟨hne, info, hinfo, horig⟩
    · exact absurd hnull hfile
    · rw [hfd] at hne hinfo
      refine ⟨hne, fun info' hinfo' => ?_⟩
      rw [saveFd_lookup h hT hne, hinfo', Option.getD_some, Option.some.injEq] at hinfo
      rw [hinfo, horig]
  · rintro ⟨hfd, hinfo⟩
    have hlookup := saveFd_lookup h hT hfd
    have horig : ((s.filesMap.lookup fileno).getD ⟨fileno, file⟩).origStream = file := by
      cases hold : s.filesMap.lookup fileno with
      | none => rfl
      | some info => exact hinfo info hold
    rw [getFopen, Except.bind_of_ok (saveFd_getFdAtOpen h hT)]
    simp only [readFrom, hlookup, horig, hfd, hfile, if_false, ne_eq, not_false_eq_true, and_self, if_true]

/-- The replay of an `fopen` that has returned a stream. -/
theorem fopen_replay {file : Nat} {fileno : Int} :
    (∃ T', (T.readFrom n).replayCall (.fopen file fileno) = .ok ({ ret := file }, T')) ↔
      (T.readFrom n).getFopen file = .ok (file, T.readFrom (n + 1)) := by
  constructor
  · rintro ⟨T', h⟩
    obtain ⟨⟨ret, u⟩, hget, hu⟩ := Except.of_bind_ok h
    simp only [Except.ok.injEq, Prod.mk.injEq, Answer.mk.injEq, Int.natCast_inj, and_true] at hu
    rw [hu.1, (getFopen_ok hget).1] at hget
    exact hget
  · exact fun h => ⟨_, Except.bind_of_ok h⟩

/-- A call that has been recorded replays with the same answer exactly when it is replayable. -/
theorem replay_iff (h : s.recordCall c = .ok (a, t)) (hcur : t.log.cur = s.log.cur + 1) (hT : Grows t T) :
    (∃ T', (T.readFrom s.log.cur).replayCall c = .ok (a, T')) ↔ s.Replayable c := by
  cases c with
  | «open» ret | fcntl ret =>
    obtain ⟨u, hsave, hu⟩ := Except.of_bind_ok h
    cases hu
    exact ⟨fun _ => trivial, fun _ => ⟨_, Except.bind_of_ok (saveFd_getFdAtOpen hsave hT)⟩⟩
  | close fd =>
    rw [recordCall] at h
    split at h
    next hnormal =>
      obtain ⟨⟨ret, u⟩, hclose, hu⟩ := Except.of_bind_ok h
      cases hu
      rcases closeFile_spec hclose with ⟨-, rfl⟩ | ⟨hstd, hlog⟩
      · exact absurd hcur (Nat.ne_of_lt (Nat.lt_succ_self _))
      · refine ⟨fun _ => hstd, fun _ => ⟨T.readFrom (s.log.cur + 1), ?_⟩⟩
        rw [replayCall, if_pos ((hlog.grows.trans hT).isNormalFile hnormal _), Except.bind_of_ok (hlog.getClose hT)]
    · cases h
  | dup oldfd ret =>
    rw [recordCall] at h
    split at h
    next hnormal =>
      obtain ⟨u, hsave, hu⟩ := Except.of_bind_ok h
      cases hu
      have hlog := saveDupFd_spec hsave
      have hget : (T.readFrom s.log.cur).getDupFd = .ok (ret, T.readFrom (s.log.cur + 1)) := by
        rw [getDupFd, Except.bind_of_ok (hlog.retrieve hT fun _ => rfl)]
      refine ⟨fun _ => trivial, fun _ => ⟨T.readFrom (s.log.cur + 1), ?_⟩⟩
      rw [replayCall, if_pos ((hlog.grows.trans hT).isNormalFile hnormal _), Except.bind_of_ok hget]
    · cases h
  -- The recorded entry is one of `dup`, and the replay asks for one of `open`.
  | dup2 oldfd newfd ret =>
    rw [recordCall] at h
    split at h
    · obtain ⟨u, hsave, hu⟩ := Except.of_bind_ok h
      cases hu
      have hread := (saveDupFd_spec hsave).retrieve hT fun _ => rfl
      refine ⟨fun ⟨T', hreplay⟩ => ?_, False.elim⟩
      rw [replayCall] at hreplay
      split at hreplay
      · obtain ⟨⟨fd, v⟩, hget, -⟩ := Except.of_bind_ok hreplay
        have hopen := (getFdAtOpen_ok hget).1
        rw [← (retrieve_ok hread).1] at hopen
        cases hopen
      · cases hreplay
    · cases h
  | opendir ret =>
    obtain ⟨u, hsave, hu⟩ := Except.of_bind_ok h
    cases hu
    exact ⟨fun _ => trivial, fun _ => ⟨_, Except.bind_of_ok (saveDir_getDirAtOpen hsave hT)⟩⟩
  | closedir dir =>
    obtain ⟨⟨ret, u⟩, hclose, hu⟩ := Except.of_bind_ok h
    cases hu
    exact ⟨fun _ => trivial, fun _ => ⟨_, Except.bind_of_ok (closeDir_getCloseDir hclose hT)⟩⟩
  | fopen ret fileno =>
    rw [recordCall] at h
    split at h
    next hret =>
      obtain ⟨u, hsave, hu⟩ := Except.of_bind_ok h
      cases hu
      rw [fopen_replay, saveFd_getFopen hsave hT hret]
      exact ⟨fun hopen => ⟨hret, hopen⟩, fun hopen => hopen.2⟩
    · cases h
      exact absurd hcur (Nat.ne_of_lt (Nat.lt_succ_self _))
  | fopen64 ret fileno =>
    rw [recordCall] at h
    split at h
    next hret =>
      obtain ⟨u, hsave, hu⟩ := Except.of_bind_ok h
      cases hu
      have hsame : (T.readFrom s.log.cur).replayCall (.fopen64 ret fileno) = (T.readFrom s.log.cur).replayCall (.fopen ret fileno) := rfl
      rw [hsame, fopen_replay, saveFd_getFopen hsave hT hret]
      exact ⟨fun hopen _ => hopen, fun hopen => hopen hret⟩
    -- A failed `fopen64` leaves an entry.
    next hret =>
      obtain ⟨u, hsave, hu⟩ := Except.of_bind_ok h
      cases hu
      have hget : (T.readFrom s.log.cur).getFopen ret = .ok (0, T.readFrom (s.log.cur + 1)) := by
        rw [getFopen, Except.bind_of_ok (saveFd_getFdAtOpen hsave hT)]
        rfl
      exact ⟨fun _ h => absurd h hret, fun _ => ⟨_, Except.bind_of_ok hget⟩⟩
  | fclose fp fileno =>
    rw [recordCall] at h
    split at h
    · cases h
    next hfp =>
      obtain ⟨⟨ret, u⟩, hclose, hu⟩ := Except.of_bind_ok h
      cases hu
      rcases closeFile_spec hclose with ⟨-, rfl⟩ | ⟨hstd, hlog⟩
      · exact absurd hcur (Nat.ne_of_lt (Nat.lt_succ_self _))
      · refine ⟨fun _ => hstd, fun _ => ⟨T.readFrom (s.log.cur + 1), ?_⟩⟩
        rw [replayCall, if_neg hfp, Except.bind_of_ok (hlog.getClose hT)]
  | mmap ret | munmap start length =>
    obtain ⟨u, hrec, hu⟩ := Except.of_bind_ok h
    cases hu
    exact ⟨fun _ => trivial, fun _ => ⟨_, Except.bind_of_ok ((record_spec hrec).1.retrieve hT fun _ => rfl)⟩⟩
  | time t ret =>
    obtain ⟨u, hrec, hu⟩ := Except.of_bind_ok h
    cases hu
    have hreplay : (T.readFrom s.log.cur).replayCall (.time t ret) = .ok ({ ret := ret, t := t }, T.readFrom (s.log.cur + 1)) :=
      Except.bind_of_ok ((record_spec hrec).1.retrieve hT fun _ => rfl)
    rw [hreplay]
    simp only [Except.ok.injEq, Prod.mk.injEq, Answer.mk.injEq, true_and, and_true, exists_and_left, exists_eq', Replayable]
    cases t with
    | none => simp
    | some old =>
      simp only [Option.map_some, Option.some.injEq, forall_eq']
      by_cases hret : ret = -1
      · simp [hret]
      · simp [hret]
  | gettimeofday tv tz ret tvalue tzone =>
    obtain ⟨u, hrec, hu⟩ := Except.of_bind_ok h
    cases hu
    refine ⟨fun _ => trivial, fun _ => ⟨T.readFrom (s.log.cur + 1), ?_⟩⟩
    rw [replayCall, Except.bind_of_ok ((record_spec hrec).1.retrieve hT fun _ => rfl)]
    cases tv <;> cases tz <;> rfl
  | times buf ret value =>
    cases buf with
    | none =>
      simp only [recordCall, Option.map_none] at h
      split at h
      · cases h
      · obtain ⟨u, hrec, hu⟩ := Except.of_bind_ok h
        cases hu
        exact ⟨fun _ => nofun, fun _ => ⟨_, Except.bind_of_ok ((record_spec hrec).1.retrieve hT fun _ => rfl)⟩⟩
    | some old =>
      simp only [recordCall, Option.map_some] at h
      obtain ⟨u, hrec, hu⟩ := Except.of_bind_ok h
      cases hu
      have hread := (record_spec hrec).1.retrieve hT fun e => by split <;> rfl
      have hreplay : (T.readFrom s.log.cur).replayCall (.times (some old) ret value) = .ok
          ({ ret := ret, buf := some (if ret ≠ -1 then value else (s.log.entries s.log.cur).buf) },
            T.readFrom (s.log.cur + 1)) := by
        rw [replayCall, Except.bind_of_ok hread]
        by_cases hret : ret = -1 <;> simp [hret]
      rw [hreplay]
      simp only [Except.ok.injEq, Prod.mk.injEq, Answer.mk.injEq, true_and, exists_and_left, exists_eq', and_true, Replayable,
        Option.some.injEq, forall_eq']
      by_cases hret : ret = -1 <;> simp [hret]

/-- Recording adds one entry or, for a call that is not replayable, possibly none. -/
theorem record_cur (h : s.recordCall c = .ok (a, t)) :
    Grows s t ∧ (t.log.cur = s.log.cur + 1 ∨ t.log.cur = s.log.cur ∧ ¬ s.Replayable c) := by
  cases c with
  | «open» ret | fcntl ret =>
    obtain ⟨u, hsave, hu⟩ := Except.of_bind_ok h
    cases hu
    have hlog := (saveFd_spec hsave).1
    exact ⟨hlog.grows, .inl hlog.cur⟩
  | close fd =>
    rw [recordCall] at h
    split at h
    · obtain ⟨⟨ret, u⟩, hclose, hu⟩ := Except.of_bind_ok h
      cases hu
      rcases closeFile_spec hclose with ⟨hstd, rfl⟩ | ⟨-, hlog⟩
      · exact ⟨Grows.refl _, .inr ⟨rfl, fun hno => by simp only [Replayable] at hno; omega⟩⟩
      · exact ⟨hlog.grows, .inl hlog.cur⟩
    · cases h
  | dup oldfd ret | dup2 oldfd newfd ret =>
    rw [recordCall] at h
    split at h
    · obtain ⟨u, hsave, hu⟩ := Except.of_bind_ok h
      cases hu
      have hlog := saveDupFd_spec hsave
      exact ⟨hlog.grows, .inl hlog.cur⟩
    · cases h
  | opendir ret =>
    obtain ⟨u, hsave, hu⟩ := Except.of_bind_ok h
    cases hu
    have hlog := (saveDir_spec hsave).1
    exact ⟨hlog.grows, .inl hlog.cur⟩
  | closedir dir =>
    obtain ⟨⟨ret, u⟩, hclose, hu⟩ := Except.of_bind_ok h
    cases hu
    have hlog := (closeDir_spec hclose).1
    exact ⟨hlog.grows, .inl hlog.cur⟩
  | fopen ret fileno =>
    rw [recordCall] at h
    split at h
    · obtain ⟨u, hsave, hu⟩ := Except.of_bind_ok h
      cases hu
      have hlog := (saveFd_spec hsave).1
      exact ⟨hlog.grows, .inl hlog.cur⟩
    next hret =>
      cases h
      exact ⟨Grows.refl _, .inr ⟨rfl, fun hopen => hret hopen.1⟩⟩
  | fopen64 ret fileno =>
    rw [recordCall] at h
    split at h <;>
    · obtain ⟨u, hsave, hu⟩ := Except.of_bind_ok h
      cases hu
      have hlog := (saveFd_spec hsave).1
      exact ⟨hlog.grows, .inl hlog.cur⟩
  | fclose fp fileno =>
    rw [recordCall] at h
    split at h
    · cases h
    · obtain ⟨⟨ret, u⟩, hclose, hu⟩ := Except.of_bind_ok h
      cases hu
      rcases closeFile_spec hclose with ⟨hstd, rfl⟩ | ⟨-, hlog⟩
      · exact ⟨Grows.refl _, .inr ⟨rfl, fun hno => by simp only [Replayable] at hno; omega⟩⟩
      · exact ⟨hlog.grows, .inl hlog.cur⟩
  | mmap ret | munmap start length | time t ret | gettimeofday tv tz ret tvalue tzone =>
    obtain ⟨u, hrec, hu⟩ := Except.of_bind_ok h
    cases hu
    have hlog := (record_spec hrec).1
    exact ⟨hlog.grows, .inl hlog.cur⟩
  | times buf ret value =>
    cases buf with
    | none =>
      simp only [recordCall, Option.map_none] at h
      split at h
      · cases h
      · obtain ⟨u, hrec, hu⟩ := Except.of_bind_ok h
        cases hu
        have hlog := (record_spec hrec).1
        exact ⟨hlog.grows, .inl hlog.cur⟩
    | some old =>
      simp only [recordCall, Option.map_some] at h
      obtain ⟨u, hrec, hu⟩ := Except.of_bind_ok h
      cases hu
      have hlog := (record_spec hrec).1
      exact ⟨hlog.grows, .inl hlog.cur⟩

/-! ### Whole epochs -/

/-- A replay of `n` calls reads `n` entries. -/
theorem replay_calls_ok {as : List Answer} (h : calls replayCall (T.readFrom n) cs = .ok (as, T')) :
    T' = T.readFrom (n + cs.length) := by
  induction cs generalizing n as with
  | nil =>
    cases h
    rfl
  | cons c cs ih =>
    obtain ⟨⟨a, u⟩, hc, hrest⟩ := Except.of_bind_ok h
    obtain ⟨⟨as', v⟩, hcs, hv⟩ := Except.of_bind_ok hrest
    cases hv
    cases replayCall_ok hc
    rw [ih hcs, List.length_cons]
    congr 1
    omega

theorem record_calls {as : List Answer} (h : calls recordCall s cs = .ok (as, t)) :
    Grows s t ∧ t.log.cur ≤ s.log.cur + cs.length := by
  induction cs generalizing s as with
  | nil =>
    cases h
    exact ⟨Grows.refl _, Nat.le_refl _⟩
  | cons c cs ih =>
    obtain ⟨⟨a, u⟩, hc, hrest⟩ := Except.of_bind_ok h
    obtain ⟨⟨as', v⟩, hcs, hv⟩ := Except.of_bind_ok hrest
    cases hv
    obtain ⟨hgrow, hcur⟩ := record_cur hc
    obtain ⟨hgrow', hcur'⟩ := ih hcs
    refine ⟨hgrow.trans hgrow', ?_⟩
    rw [List.length_cons]
    omega

/-- An epoch replays with the answers of the recorded run and reads its whole log exactly when each of its calls is
    replayable. -/
theorem replay_calls_iff {as : List Answer} (h : calls recordCall s cs = .ok (as, t)) (hT : Grows t T) :
    (∃ T', calls replayCall (T.readFrom s.log.cur) cs = .ok (as, T') ∧ T'.log.iter = t.log.cur) ↔ s.AllReplayable cs := by
  induction cs generalizing s as with
  | nil =>
    cases h
    exact ⟨fun _ => trivial, fun _ => ⟨_, rfl, rfl⟩⟩
  | cons c cs ih =>
    obtain ⟨⟨a, u⟩, hc, hrest⟩ := Except.of_bind_ok h
    obtain ⟨⟨as', v⟩, hcs, hv⟩ := Except.of_bind_ok hrest
    cases hv
    obtain ⟨hgrow, hcur⟩ := record_cur hc
    obtain ⟨hgrow', hcur'⟩ := record_calls hcs
    have hiff := ih hcs
    have hnext : s.AllReplayable (c :: cs) ↔ s.Replayable c ∧ u.AllReplayable cs := by
      refine and_congr Iff.rfl ⟨fun hall => hall a u hc, fun hall a' u' hc' => ?_⟩
      rw [hc] at hc'
      cases hc'
      exact hall
    rw [hnext]
    constructor
    · rintro ⟨T', hreplay, hiter⟩
      obtain ⟨⟨b, w⟩, hb, hbrest⟩ := Except.of_bind_ok hreplay
      obtain ⟨⟨bs, w'⟩, hbs, hw'⟩ := Except.of_bind_ok hbrest
      cases hw'
      cases replayCall_ok hb
      -- The replay has read one entry for each call, so each call has left one.
      have hread := replay_calls_ok hbs
      have hone : u.log.cur = s.log.cur + 1 := by
        rw [hread] at hiter
        simp only [readFrom] at hiter
        omega
      refine ⟨(replay_iff hc hone (hgrow'.trans hT)).mp ⟨_, hb⟩, hiff.mp ⟨_, hone ▸ hbs, hiter⟩⟩
    · rintro ⟨hrep, hall⟩
      have hone : u.log.cur = s.log.cur + 1 := hcur.resolve_right fun hno => hno.2 hrep
      obtain ⟨w, hw⟩ := (replay_iff hc hone (hgrow'.trans hT)).mpr hrep
      obtain ⟨T', hT', hiter⟩ := hiff.mpr hall
      cases replayCall_ok hw
      rw [hone] at hT'
      refine ⟨T', ?_, hiter⟩
      rw [calls, Except.bind_of_ok hw]
      dsimp only
      rw [Except.bind_of_ok hT']

/-- The replay of an epoch: the answers of the recorded run, and nothing left in the log. -/
def Agrees (cs : List Call) (as : List Answer) (t : Sys) : Prop :=
  ∃ T', calls replayCall t.prepareRollback cs = .ok (as, T') ∧ T'.log.iter = t.log.cur

theorem replay_agrees_iff (hstart : s.log.cur = 0) {as : List Answer} (h : calls recordCall s cs = .ok (as, t)) :
    Agrees cs as t ↔ s.AllReplayable cs := by
  have hiff := replay_calls_iff h (Grows.refl t)
  rw [hstart] at hiff
  exact hiff

/-- A thread at the beginning of an epoch, with no files. -/
def fresh : Sys where
  log := ⟨fun _ => ⟨.fileOpen, 0, 0, 0, 0, 0, 0, ⟨0, 0⟩, ⟨0, 0⟩, ⟨0, 0, 0, 0⟩⟩, 0, 0⟩
  filesMap := []
  dirsMap := []

/-- An epoch with a failed and a successful call. -/
theorem replay_agrees_open : ∃ as t, calls recordCall fresh [.open 3, .open (-1), .time none 7] = .ok (as, t) ∧
    Agrees [.open 3, .open (-1), .time none 7] as t := by
  refine ⟨_, _, rfl, (replay_agrees_iff (s := fresh) rfl rfl).mpr ?_⟩
  exact ⟨trivial, fun _ _ _ => ⟨trivial, fun _ _ _ => ⟨nofun, fun _ _ _ => trivial⟩⟩⟩

/-- `dup2` leaves an entry for `dup`, and its replay asks for one of `open`. -/
theorem dup2_not_replayed : ¬ ∀ (s t : Sys) (cs : List Call) (as : List Answer), s.log.cur = 0 →
    calls recordCall s cs = .ok (as, t) → Agrees cs as t := by
  intro h
  obtain ⟨T', hT', -⟩ := h fresh _ [.open 3, .open 4, .dup2 3 4 4] _ rfl rfl
  cases hT'

end Sys
end DoubleTake
