import Mathlib.Data.List.Pairwise
import DoubleTake.Theorems.Fops

/-! Which descriptors a commit closes. An entry that `dup` has made has the stream of the old descriptor, so closing the new one
    closes the stream: a commit closes what has been closed, as long as a descriptor with a stream is closed by its `fclose`. -/

namespace DoubleTake

open Transition

namespace Fops

namespace State

variable {s t : State} {fd : Int} {fp : Option Nat} {c : Call}

/-! ### Closing entries -/

theorem isNormalFile_iff : s.isNormalFile fd = true ↔ fd ∈ s.filesMap.map (·.1) := by
  rw [isNormalFile, Option.isSome_iff_ne_none, ne_eq, Deferred.lookup_eq_none_iff, not_not]

/-- The call that closes an entry. -/
def realOf (e : Int × FileInfo) : Real :=
  match e.2.origStream with
  | some stream => .fclose stream
  | none => .close e.1

def streamOf : Real → Option Nat
  | .fclose stream => some stream
  | .close _ | .closedir _ => none

theorem streamOf_realOf (e : Int × FileInfo) : streamOf (realOf e) = e.2.origStream := by
  rw [realOf]
  split <;> simp [streamOf, *]

theorem closeEntry_call {o o' : Opened} {e : Int × FileInfo} (h : closeEntry o e = some o') : o' = o.call (realOf e) := by
  rw [closeEntry] at h
  rw [realOf]
  cases horig : e.2.origStream with
  | none =>
    rw [horig] at h
    cases h
    rfl
  | some stream =>
    rw [horig] at h
    dsimp only at h
    split at h
    · cases h
      rfl
    · cases h

theorem closeEntries_calls {es : List (Int × FileInfo)} {o o' : Opened} (h : es.foldlM closeEntry o = some o') :
    o'.calls = o.calls ++ es.map realOf := by
  induction es generalizing o with
  | nil =>
    cases h
    exact (List.append_nil _).symm
  | cons e es ih =>
    rw [List.foldlM_cons] at h
    obtain ⟨o₁, he, h⟩ := Option.bind_eq_some_iff.mp h
    have hcalls : o₁.calls = o.calls ++ [realOf e] := by
      rw [closeEntry_call he]
      cases realOf e with
      | close fd => rfl
      | closedir dir => rfl
      | fclose stream =>
        simp only [Opened.call, Opened.fclose]
        split <;> rfl
    rw [ih h, hcalls, List.map_cons, List.append_assoc, List.singleton_append]

/-- An entry without a stream, or with the stream that is open on its descriptor, is closed with its descriptor. -/
theorem closeEntry_own {o o' : Opened} {e : Int × FileInfo} (h : closeEntry o e = some o') (hstreams : (o.streams.map (·.1)).Nodup)
    (hown : ∀ stream, e.2.origStream = some stream → (stream, e.1) ∈ o.streams) :
    o'.fds = o.fds.filter (· ≠ e.1) ∧ o'.streams = o.streams.filter (fun st => e.2.origStream ≠ some st.1) := by
  rw [closeEntry_call h, realOf]
  cases horig : e.2.origStream with
  | none => exact ⟨rfl, (List.filter_eq_self.mpr fun st _ => by simp).symm⟩
  | some stream =>
    have hl := Deferred.lookup_of_mem hstreams (hown stream horig)
    simp only [Opened.call, Opened.fclose, hl]
    refine ⟨trivial, List.filter_congr fun st _ => ?_⟩
    exact decide_eq_decide.mpr (by rw [ne_eq, ne_eq, Option.some.injEq, eq_comm])

/-- The same for all entries that a commit closes. -/
theorem closeEntries_own {es : List (Int × FileInfo)} {o o' : Opened} (h : es.foldlM closeEntry o = some o')
    (hes : (es.map (·.1)).Nodup) (hstreams : (o.streams.map (·.1)).Nodup)
    (hown : ∀ e ∈ es, ∀ stream, e.2.origStream = some stream → (stream, e.1) ∈ o.streams) :
    (∀ fd, fd ∈ o'.fds ↔ fd ∈ o.fds ∧ fd ∉ es.map (·.1)) ∧
      o'.streams = o.streams.filter (fun st => ∀ e ∈ es, e.2.origStream ≠ some st.1) := by
  induction es generalizing o with
  | nil =>
    cases h
    exact ⟨fun fd => by simp, (List.filter_eq_self.mpr fun st _ => by simp).symm⟩
  | cons e es ih =>
    rw [List.foldlM_cons] at h
    obtain ⟨o₁, he, h⟩ := Option.bind_eq_some_iff.mp h
    obtain ⟨hhead, htail⟩ := List.nodup_cons.mp hes
    obtain ⟨hfds, hst⟩ := closeEntry_own he hstreams (hown e List.mem_cons_self)
    have hstreams₁ : (o₁.streams.map (·.1)).Nodup := by
      rw [hst]
      exact hstreams.sublist (List.filter_sublist.map _)
    obtain ⟨hfds', hst'⟩ := ih h htail hstreams₁ fun e' he' stream horig => by
      have hmem := hown e' (List.mem_cons_of_mem _ he') stream horig
      rw [hst, List.mem_filter]
      refine ⟨hmem, decide_eq_true fun heq => hhead ?_⟩
      have hsame := List.inj_on_of_nodup_map hstreams (hown e List.mem_cons_self stream heq) hmem rfl
      dsimp only
      rw [(Prod.mk.inj hsame).2]
      exact List.mem_map_of_mem he'
    constructor
    · intro fd
      rw [hfds', hfds, List.mem_filter, List.map_cons, List.mem_cons, not_or, and_assoc]
      simp only [ne_eq, decide_not, Bool.not_eq_eq_eq_not, Bool.not_true, decide_eq_false_iff_not]
    · rw [hst', hst, List.filter_filter]
      refine List.filter_congr fun st _ => ?_
      rw [← Bool.decide_and]
      exact decide_eq_decide.mpr (by rw [List.forall_mem_cons, and_comm])

/-! ### What a commit closes -/

/-- The commit returns, the descriptors that it closes are those whose close is on the list, and a stream is closed once, because
    of its own `fclose`. -/
def ClosesOwn (s : State) : Prop :=
  ∃ t rs, s.cleanClosedFiles = some t ∧ t.os.calls = s.os.calls ++ rs ∧
    (∀ fd, fd ∈ t.os.fds ↔ fd ∈ s.os.fds ∧ fd ∉ s.closes.map (·.1)) ∧
    (rs.filterMap streamOf).Nodup ∧ ∀ stream ∈ rs.filterMap streamOf, ∃ fd, (fd, some stream) ∈ s.closes

/-- No descriptor has been closed twice, and one whose entry has a stream has been closed by the `fclose` of that stream. -/
def OwnCloses (s : State) : Prop :=
  (s.closes.map (·.1)).Nodup ∧
    ∀ c ∈ s.closes, ∀ info, s.filesMap.lookup c.1 = some info → info.origStream = none ∨ info.origStream = c.2

/-- A call on a file, or one that ends the epoch. -/
def OnFiles : Call → Prop
  | .opendir _ | .closedir _ => False
  | .open _ | .fopen _ | .dup _ _ | .close _ | .fclose _ | .commit => True

/-- Calls on files, where each epoch ends with closes of that kind. -/
def Matched (s : State) (c : Call) : Prop := OnFiles c ∧ (s.endsEpoch c = true → s.OwnCloses)

/-- Between commits that have closed their own: each descriptor with an entry has only this one and is open, and a stream that is
    open is that of its descriptor, or of no entry at all. -/
structure Own (s : State) : Prop where
  wf : s.Wf
  dirClose : s.dirClose = []
  keys : (s.filesMap.map (·.1)).Nodup
  opened : ∀ e ∈ s.filesMap, e.1 ∈ s.os.fds
  streams : (s.os.streams.map (·.1)).Nodup
  own : ∀ st ∈ s.os.streams,
    (∃ e ∈ s.filesMap, e.1 = st.2 ∧ e.2.origStream = some st.1) ∨ ∀ e ∈ s.filesMap, e.2.origStream ≠ some st.1
  recorded : ∀ c ∈ s.closes, c.1 ∈ s.filesMap.map (·.1) ∧ ∀ stream, c.2 = some stream → (stream, c.1) ∈ s.os.streams

/-- What `cleanClosedFiles` finds and leaves. -/
theorem Own.cleanClosedFiles (h : s.Own) (hc : s.cleanClosedFiles = some t) : ∃ (files : List (Int × FileInfo)) (os : Opened),
    files.map (·.1) = s.closes.map (·.1) ∧ (s.closes.map (·.1)).Nodup ∧ (∀ e ∈ files, e ∈ s.filesMap) ∧
    files.foldlM closeEntry s.os = some os ∧
    t = { s with filesMap := s.filesMap.filter (·.1 ∉ s.closes.map (·.1)), fileClose := [], os := os } := by
  obtain ⟨files, filesMap, os, dirs, dirsMap, os', hf, hos, hd, hos', rfl⟩ := cleanClosedFiles_eq_some_iff.mp hc
  rw [h.wf.closes] at hf
  have hnull : -1 ∉ s.closes.map (·.1) := by
    intro hmem
    obtain ⟨c, hc, heq⟩ := List.mem_map.mp hmem
    obtain ⟨e, he, hkey⟩ := List.mem_map.mp (h.recorded c hc).1
    exact (h.wf.files e he).1 (hkey.trans heq)
  obtain ⟨hkeys, hnodup, -, -⟩ := Deferred.cleanClosed_some h.keys hnull hf
  rw [h.dirClose] at hd
  cases hd
  cases hos'
  refine ⟨files, os, hkeys, hnodup, (Deferred.cleanClosed_entries hf).1, hos, ?_⟩
  rw [Deferred.cleanClosed_rest h.keys hnull hf, h.dirClose]

/-- The stream of an entry that is closed is open on the descriptor. -/
theorem Own.stream_open (h : s.Own) (ho : s.OwnCloses) {e : Int × FileInfo} (he : e ∈ s.filesMap) (hc : e.1 ∈ s.closes.map (·.1))
    {stream : Nat} (hst : e.2.origStream = some stream) : (stream, e.1) ∈ s.os.streams := by
  obtain ⟨c, hc, heq⟩ := List.mem_map.mp hc
  have hl : s.filesMap.lookup c.1 = some e.2 := heq ▸ Deferred.lookup_of_mem h.keys he
  rcases ho.2 c hc e.2 hl with hnone | hsome
  · rw [hnone] at hst
    cases hst
  · rw [← heq]
    exact (h.recorded c hc).2 stream (hsome.symm.trans hst)

/-- What the commit does when each close is of that kind. -/
theorem Own.closed (h : s.Own) (ho : s.OwnCloses) (hc : s.cleanClosedFiles = some t) :
    (∀ fd, fd ∈ t.os.fds ↔ fd ∈ s.os.fds ∧ fd ∉ s.closes.map (·.1)) ∧
      t.os.streams = s.os.streams.filter
        (fun st => ∀ e ∈ s.filesMap, e.1 ∈ s.closes.map (·.1) → e.2.origStream ≠ some st.1) := by
  obtain ⟨files, os, hkeys, hnodup, hfiles, hos, rfl⟩ := h.cleanClosedFiles hc
  have hmem : ∀ e, e ∈ files ↔ e ∈ s.filesMap ∧ e.1 ∈ s.closes.map (·.1) := by
    intro e
    rw [← hkeys]
    constructor
    · exact fun he => ⟨hfiles e he, List.mem_map_of_mem he⟩
    · rintro ⟨he, hkey⟩
      obtain ⟨e', he', heq⟩ := List.mem_map.mp hkey
      exact List.inj_on_of_nodup_map h.keys (hfiles e' he') he heq ▸ he'
  obtain ⟨hfds, hst⟩ := closeEntries_own hos (hkeys ▸ hnodup) h.streams fun e he stream horig =>
    h.stream_open ho (hfiles e he) ((hmem e).mp he).2 horig
  refine ⟨fun fd => by rw [hfds, hkeys], hst.trans (List.filter_congr fun st _ => decide_eq_decide.mpr ?_)⟩
  simp only [hmem, and_imp]

/-- Two entries that are closed do not share a stream. -/
theorem nodup_streams_inj {files : List (Int × FileInfo)} (h : ((files.map realOf).filterMap streamOf).Nodup)
    {e e' : Int × FileInfo} (he : e ∈ files) (he' : e' ∈ files) {stream : Nat} (h₁ : e.2.origStream = some stream)
    (h₂ : e'.2.origStream = some stream) : e = e' := by
  rw [List.filterMap_map, List.Nodup, List.pairwise_filterMap] at h
  by_contra hne
  have hsym : Std.Symm fun a b : Int × FileInfo => ∀ x, (streamOf ∘ realOf) a = some x → ∀ y, (streamOf ∘ realOf) b = some y → x ≠ y :=
    ⟨fun a b hab x hx y hy => (hab y hy x hx).symm⟩
  exact h.forall he he' hne stream ((streamOf_realOf e).trans h₁) stream ((streamOf_realOf e').trans h₂) rfl

/-- After commits that have closed their own, the next one does so exactly if no descriptor has been closed twice and each one with a
    stream has been closed by the `fclose` of that stream. -/
theorem Own.closesOwn_iff (h : s.Own) : s.ClosesOwn ↔ s.OwnCloses := by
  constructor
  · rintro ⟨t, rs, hc, hcalls, -, hnodup, hrec⟩
    obtain ⟨files, os, hkeys, hfds, hfiles, hos, rfl⟩ := h.cleanClosedFiles hc
    have hrs : rs = files.map realOf := List.append_cancel_left (hcalls.symm.trans (closeEntries_calls hos))
    subst hrs
    refine ⟨hfds, fun c hc info hinfo => ?_⟩
    cases horig : info.origStream with
    | none => exact .inl rfl
    | some stream =>
      right
      have hmem := Deferred.mem_of_lookup_eq hinfo
      obtain ⟨e, he, heq⟩ := List.mem_map.mp (hkeys ▸ List.mem_map_of_mem hc : c.1 ∈ files.map (·.1))
      cases List.inj_on_of_nodup_map h.keys (hfiles e he) hmem heq
      -- The stream has been passed to the real `fclose`, so its own one has been called.
      have hcalled : stream ∈ (files.map realOf).filterMap streamOf := by
        rw [List.filterMap_map, List.mem_filterMap]
        exact ⟨_, he, (streamOf_realOf _).trans horig⟩
      obtain ⟨fd, hfd⟩ := hrec stream hcalled
      have hopen := (h.recorded _ hfd).2 stream rfl
      rcases h.own _ hopen with ⟨e', he', hkey', horig'⟩ | hforeign
      · have hin : e' ∈ files := by
          have hfdkey : fd ∈ files.map (·.1) := hkeys ▸ List.mem_map_of_mem hfd
          obtain ⟨e₁, he₁, heq₁⟩ := List.mem_map.mp hfdkey
          exact List.inj_on_of_nodup_map h.keys (hfiles e₁ he₁) he' (heq₁.trans hkey'.symm) ▸ he₁
        have hsame := nodup_streams_inj hnodup he hin horig horig'
        have hfdc : (fd, some stream) = c := List.inj_on_of_nodup_map hfds hfd hc (hkey'.symm.trans (congrArg Prod.fst hsame).symm)
        rw [← hfdc]
      · exact absurd horig (hforeign _ hmem)
  · intro ho
    have hdrain : s.Drainable := by
      refine ⟨fun fd _ => ?_, fun dir _ => ?_⟩
      · by_cases hmem : fd ∈ s.closes.map (·.1)
        · obtain ⟨c, hc, rfl⟩ := List.mem_map.mp hmem
          rw [List.count_eq_one_of_mem ho.1 hmem]
          exact List.count_pos_iff.mpr (h.recorded c hc).1
        · rw [List.count_eq_zero.mpr hmem]
          exact Nat.zero_le _
      · rw [h.dirClose]
        exact Nat.zero_le _
    obtain ⟨t, hc⟩ := Option.isSome_iff_exists.mp (h.wf.cleanClosedFiles_isSome_iff.mpr hdrain)
    have hfds := (h.closed ho hc).1
    obtain ⟨files, os, hkeys, -, hfiles, hos, rfl⟩ := h.cleanClosedFiles hc
    have hopen : ∀ e ∈ files, ∀ stream, e.2.origStream = some stream → (stream, e.1) ∈ s.os.streams := fun e he stream horig =>
      h.stream_open ho (hfiles e he) (hkeys ▸ List.mem_map_of_mem he) horig
    refine ⟨_, files.map realOf, hc, closeEntries_calls hos, hfds, ?_, ?_⟩
    · rw [List.filterMap_map, List.Nodup, List.pairwise_filterMap]
      refine (List.pairwise_map.mp (hkeys ▸ ho.1 : (files.map (·.1)).Nodup)).imp_of_mem fun {e e'} he he' hne x hx y hy heq => ?_
      subst heq
      have h₁ := hopen e he x ((streamOf_realOf e).symm.trans hx)
      have h₂ := hopen e' he' x ((streamOf_realOf e').symm.trans hy)
      exact hne (Prod.mk.inj (List.inj_on_of_nodup_map h.streams h₁ h₂ rfl)).2
    · intro stream hst
      rw [List.filterMap_map, List.mem_filterMap] at hst
      obtain ⟨e, he, horig⟩ := hst
      have horig' : e.2.origStream = some stream := (streamOf_realOf e).symm.trans horig
      obtain ⟨c, hc, heq⟩ := List.mem_map.mp (hkeys ▸ List.mem_map_of_mem he : e.1 ∈ s.closes.map (·.1))
      have hl : s.filesMap.lookup c.1 = some e.2 := heq ▸ Deferred.lookup_of_mem h.keys (hfiles e he)
      rcases ho.2 c hc e.2 hl with hnone | hsome
      · rw [hnone] at horig'
        cases horig'
      · exact ⟨c.1, by rw [← horig', hsome]; exact hc⟩

/-! ### Runs -/

theorem Own.commit (h : s.Own) (ho : s.OwnCloses) (hc : s.commit = some t) : t.Own := by
  have hwf := h.wf.commit hc
  rw [State.commit] at hc
  obtain ⟨s₁, hclean, hc⟩ := Option.bind_eq_some_iff.mp hc
  cases hc
  obtain ⟨hfds, hst⟩ := h.closed ho hclean
  obtain ⟨files, os, -, -, -, -, rfl⟩ := h.cleanClosedFiles hclean
  refine ⟨hwf, h.dirClose, h.keys.sublist (List.filter_sublist.map _), fun e he => ?_, ?_, fun st hmem => ?_,
    fun c hc => absurd hc List.not_mem_nil⟩
  · obtain ⟨he, hkey⟩ := List.mem_filter.mp he
    exact (hfds e.1).mpr ⟨h.opened e he, of_decide_eq_true hkey⟩
  · dsimp only at hst ⊢
    rw [hst]
    exact h.streams.sublist (List.filter_sublist.map _)
  · dsimp only at hst hmem
    rw [hst, List.mem_filter, decide_eq_true_eq] at hmem
    rcases h.own st hmem.1 with ⟨e, he, hkey, horig⟩ | hforeign
    · refine .inl ⟨e, List.mem_filter.mpr ⟨he, decide_eq_true fun hclosed => ?_⟩, hkey, horig⟩
      exact hmem.2 e he hclosed horig
    · exact .inr fun e he => hforeign e (List.mem_filter.mp he).1

theorem commit_filesMap (h : s.commit = some t) : ∀ e ∈ t.filesMap, e ∈ s.filesMap := by
  rw [State.commit] at h
  obtain ⟨s₁, hclean, h⟩ := Option.bind_eq_some_iff.mp h
  cases h
  obtain ⟨files, filesMap, os, dirs, dirsMap, os', hf, -, -, -, rfl⟩ := cleanClosedFiles_eq_some_iff.mp hclean
  exact (Deferred.cleanClosed_entries hf).2

/-- More may be open. -/
theorem Own.openMore (h : s.Own) {os : Opened} (hfds : ∀ fd ∈ s.os.fds, fd ∈ os.fds) (hst : os.streams = s.os.streams) :
    Own { s with os := os } := by
  refine ⟨h.wf.setOs os, h.dirClose, h.keys, fun e he => hfds _ (h.opened e he), ?_, ?_, ?_⟩
  · exact hst ▸ h.streams
  · exact hst ▸ h.own
  · exact hst ▸ h.recorded

/-- A new entry, for a new descriptor. Its stream is a new one, or the one of another entry. -/
theorem Own.add (h : s.Own) {info : FileInfo} {os : Opened} {nextBlock : Nat} (hfd : fd ≠ -1 ∧ fd ∉ s.os.fds)
    (hwf : Wf { s with filesMap := s.filesMap ++ [(fd, info)], os := os, nextBlock := nextBlock })
    (hfds : ∀ x, x ∈ s.os.fds ∨ x = fd → x ∈ os.fds)
    (hst : os.streams = s.os.streams ∧ (info.origStream = none ∨ ∃ e ∈ s.filesMap, e.2.origStream = info.origStream) ∨
      ∃ stream, os.streams = s.os.streams ++ [(stream, fd)] ∧ stream ∉ s.os.streams.map (·.1) ∧ info.origStream = some stream) :
    Own { s with filesMap := s.filesMap ++ [(fd, info)], os := os, nextBlock := nextBlock } := by
  have hnew : s.filesMap.lookup fd = none := by
    rw [Deferred.lookup_eq_none_iff]
    intro hmem
    obtain ⟨e, he, rfl⟩ := List.mem_map.mp hmem
    exact hfd.2 (h.opened e he)
  have hrec : ∀ c ∈ s.closes, c.1 ∈ (s.filesMap ++ [(fd, info)]).map (·.1) ∧ ∀ stream, c.2 = some stream → (stream, c.1) ∈ os.streams := by
    intro c hc
    refine ⟨Deferred.mem_append.mpr (.inl (h.recorded c hc).1), fun stream hstream => ?_⟩
    have hold := (h.recorded c hc).2 stream hstream
    rcases hst with ⟨heq, -⟩ | ⟨stream', heq, -, -⟩
    · exact heq ▸ hold
    · exact heq ▸ List.mem_append_left _ hold
  refine ⟨hwf, h.dirClose, Deferred.nodup_append h.keys hnew, fun e he => hfds _ ?_, ?_, fun st hmem => ?_, hrec⟩
  · rcases List.mem_append.mp he with he | he
    · exact .inl (h.opened e he)
    · exact .inr (congrArg Prod.fst (List.mem_singleton.mp he))
  · rcases hst with ⟨heq, -⟩ | ⟨stream, heq, hne, -⟩
    · exact heq ▸ h.streams
    · dsimp only
      rw [heq]
      exact Deferred.nodup_append h.streams (Deferred.lookup_eq_none_iff.mpr hne)
  · rcases hst with ⟨heq, hcopy⟩ | ⟨stream, heq, hne, horig⟩
    · dsimp only at hmem
      rw [heq] at hmem
      rcases h.own st hmem with ⟨e, he, hkey, ho⟩ | hforeign
      · exact .inl ⟨e, List.mem_append_left _ he, hkey, ho⟩
      · refine .inr fun e he => ?_
        rcases List.mem_append.mp he with he | he
        · exact hforeign e he
        · cases List.mem_singleton.mp he
          rcases hcopy with hnone | ⟨e', he', hsame⟩
          · rw [hnone]
            exact fun h => by cases h
          · exact hsame ▸ hforeign e' he'
    · dsimp only at hmem
      rw [heq] at hmem
      rcases List.mem_append.mp hmem with hold | hmem
      · rcases h.own st hold with ⟨e, he, hkey, ho⟩ | hforeign
        · exact .inl ⟨e, List.mem_append_left _ he, hkey, ho⟩
        · refine .inr fun e he => ?_
          rcases List.mem_append.mp he with he | he
          · exact hforeign e he
          · cases List.mem_singleton.mp he
            rw [horig]
            intro hsame
            cases hsame
            exact hne (List.mem_map_of_mem hold)
      · cases List.mem_singleton.mp hmem
        exact .inl ⟨(fd, info), List.mem_append_right _ (List.mem_singleton_self _), rfl, horig⟩

theorem mem_newFd {o : Opened} {x : Int} (hfd : fd ≠ -1) : x ∈ o.fds ∨ x = fd → x ∈ (o.newFd fd).fds := by
  rw [Opened.newFd, if_pos hfd, List.mem_append, List.mem_singleton]
  exact id

theorem newFd_streams (o : Opened) (fd : Int) : (o.newFd fd).streams = o.streams := by
  rw [Opened.newFd]
  split <;> rfl

theorem newFd_fds {o : Opened} {x : Int} (hx : x ∈ o.fds) : x ∈ (o.newFd fd).fds := by
  rw [Opened.newFd]
  split
  · exact List.mem_append_left _ hx
  · exact hx

theorem Own.open (h : s.Own) {ret : Int} (hl : ret = -1 ∨ 0 ≤ ret ∧ ret ∉ s.os.fds) :
    ({ s with os := s.os.newFd ret }.saveFd ret none).Own := by
  have hwf := (h.wf.setOs (s.os.newFd ret)).saveFd ret none
  by_cases hret : ret = -1
  · rw [saveFd, if_neg (not_not.mpr hret)]
    exact h.openMore (fun x hx => newFd_fds hx) (newFd_streams _ _)
  · rw [saveFd, if_pos hret] at hwf ⊢
    exact h.add ⟨hret, (hl.resolve_left hret).2⟩ hwf (fun x => mem_newFd hret) (.inl ⟨newFd_streams _ _, .inl rfl⟩)

theorem Own.dup (h : s.Own) {oldfd ret : Int} (hl : ret = -1 ∨ 0 ≤ ret ∧ ret ∉ s.os.fds)
    (hd : { s with os := s.os.newFd ret }.saveDupFd oldfd ret = some t) : t.Own := by
  have hwf := (h.wf.setOs (s.os.newFd ret)).saveDupFd hd
  rw [saveDupFd] at hd
  split at hd
  next hret =>
    obtain ⟨info, hinfo, hd⟩ := Option.bind_eq_some_iff.mp hd
    cases hd
    exact h.add ⟨hret, (hl.resolve_left hret).2⟩ hwf (fun x => mem_newFd hret)
      (.inl ⟨newFd_streams _ _, .inr ⟨_, Deferred.mem_of_lookup_eq hinfo, rfl⟩⟩)
  next =>
    cases hd
    exact h.openMore (fun x hx => newFd_fds hx) (newFd_streams _ _)

theorem Own.closeFile (h : s.Own) (hfp : ∀ stream, fp = some stream → (stream, fd) ∈ s.os.streams)
    (hc : (s.closeFile none fd fp).map Prod.fst = some t) : t.Own := by
  have hwf := h.wf.closeFile hc
  obtain ⟨⟨t', ret⟩, hrun, rfl⟩ := Option.map_eq_some_iff.mp hc
  rcases closeFile_cases hrun with rfl | ⟨hn, rfl⟩
  · exact h
  · refine ⟨hwf, h.dirClose, h.keys, h.opened, h.streams, h.own, fun c hc => ?_⟩
    rcases List.mem_append.mp hc with hc | hc
    · exact h.recorded c hc
    · cases List.mem_singleton.mp hc
      exact ⟨isNormalFile_iff.mp hn, hfp⟩

theorem Own.exec (h : s.Own) (hl : s.Legal c) (hm : s.Matched c) (hs : s.exec c = some t) : t.Own := by
  cases c with
  | «open» ret =>
    cases hs
    exact h.open hl
  | fopen file =>
    cases file with
    | none =>
      cases hs
      exact h
    | some file =>
      obtain ⟨stream, fd⟩ := file
      obtain ⟨⟨hpos, hfd⟩, hnew⟩ := hl
      have hne : fd ≠ -1 := by omega
      have hwf := h.wf.exec hs
      rw [State.exec, saveFopen, saveFd, if_pos hne, Option.some.injEq] at hs
      subst hs
      refine h.add ⟨hne, hfd⟩ hwf (fun x hx => ?_) (.inr ⟨stream, rfl, hnew, rfl⟩)
      exact List.mem_append.mpr (hx.imp_right List.mem_singleton.mpr)
  | opendir dir => exact absurd hm.1 id
  | closedir dir => exact absurd hm.1 id
  | dup oldfd ret =>
    rw [State.exec] at hs
    cases hn : s.isNormalFile oldfd with
    | true =>
      rw [if_pos hn] at hs
      exact h.dup hl hs
    | false =>
      rw [if_neg (Bool.eq_false_iff.mp hn)] at hs
      obtain ⟨s₁, hc, hs⟩ := Option.bind_eq_some_iff.mp hs
      cases hs
      exact (h.commit (hm.2 (by rw [endsEpoch, hn]; rfl)) hc).openMore (fun x hx => newFd_fds hx) (newFd_streams _ _)
  | close fd =>
    rw [State.exec] at hs
    cases hn : s.isNormalFile fd with
    | true =>
      rw [if_pos hn] at hs
      exact h.closeFile (fun stream hst => by cases hst) hs
    | false =>
      rw [if_neg (Bool.eq_false_iff.mp hn)] at hs
      obtain ⟨s₁, hc, hs⟩ := Option.bind_eq_some_iff.mp hs
      cases hs
      have ho : s.OwnCloses := hm.2 (by rw [endsEpoch, hn]; rfl)
      have h₁ := h.commit ho hc
      refine ⟨h₁.wf.setOs _, h₁.dirClose, h₁.keys, fun e he => ?_, h₁.streams, h₁.own, h₁.recorded⟩
      have hopen := h₁.opened e he
      refine List.mem_filter.mpr ⟨hopen, decide_eq_true fun heq => ?_⟩
      -- It has no entry, and the commit has made none.
      have hkey : e.1 ∈ s.filesMap.map (·.1) := List.mem_map_of_mem (commit_filesMap hc e he)
      rw [heq, ← isNormalFile_iff, hn] at hkey
      cases hkey
  | fclose fp =>
    obtain ⟨fd, hfd, hs⟩ := Option.bind_eq_some_iff.mp hs
    refine h.closeFile (fun stream hst => ?_) hs
    cases hst
    exact Deferred.mem_of_lookup_eq hfd
  | commit => exact h.commit (hm.2 rfl) hs

theorem Began.own (h : s.Began) : s.Own := by
  refine ⟨h.wf, h.dirClose, ?_, ?_, h.streams, fun st _ => .inr ?_, ?_⟩
  · rw [h.filesMap]
    exact List.nodup_nil
  · rw [h.filesMap]
    exact fun e he => absurd he List.not_mem_nil
  · rw [h.filesMap]
    exact fun e he => absurd he List.not_mem_nil
  · rw [h.closes]
    exact fun c hc => absurd hc List.not_mem_nil

theorem reachable_own (h : Reachable (system.restrict Matched) s) : s.Own :=
  Reachable.invariant (S := system.restrict Matched) (P := Own) (fun _ hb => hb.own)
    (fun _ _ _ hi hs => hi.exec hs.2.1 hs.1 hs.2.2) h

/-- As long as all epochs have ended with such closes, the next one closes its own descriptors exactly if its closes are such. -/
theorem closes_own_iff (h : Reachable (system.restrict Matched) s) : s.ClosesOwn ↔ s.OwnCloses := (reachable_own h).closesOwn_iff

/-- A stream on descriptor 3 and a copy of the descriptor, and the stream is closed. -/
theorem closes_own_one : ∃ s, Reachable (system.restrict Matched) s ∧ s.closes = [(3, some 1000)] ∧ s.isNormalFile 4 = true ∧ s.ClosesOwn := by
  have hrun : (List.foldlM (fun (s : State) c => if s.endsEpoch c then none else next s c) began
      [.fopen (some (1000, 3)), .dup 3 4, .fclose 1000]).map (fun s => (s.closes, s.filesMap)) =
      some ([(3, some 1000)], [(3, ⟨3, some 0, some 1000⟩), (4, ⟨4, some 1, some 1000⟩)]) := by decide
  obtain ⟨s, hs, heq⟩ := Option.map_eq_some_iff.mp hrun
  obtain ⟨hcloses, hfiles⟩ := Prod.mk.inj heq
  have hr : Reachable (system.restrict Matched) s := by
    refine .of_foldlM (fun s c t hc hs => ?_) (.init began_began) hs
    split at hs
    next => cases hs
    next hends =>
      refine ⟨⟨?_, fun he => absurd he hends⟩, next_step hs⟩
      simp only [List.mem_cons, List.not_mem_nil, or_false] at hc
      rcases hc with rfl | rfl | rfl <;> trivial
  have ho : s.OwnCloses := by
    rw [OwnCloses, hcloses, hfiles]
    refine ⟨by decide, fun c hc info hinfo => ?_⟩
    cases List.mem_singleton.mp hc
    cases hinfo
    exact .inr rfl
  refine ⟨s, hr, hcloses, ?_, (closes_own_iff hr).mpr ho⟩
  rw [isNormalFile, hfiles]
  rfl

/-- The copy is closed, not the stream: the stream is passed to `fclose`, and the copy stays open. -/
theorem dup_closes_stream : ¬ ∀ s, Reachable (system.restrict fun _ c => OnFiles c) s → s.ClosesOwn := by
  intro h
  have hrun : (List.foldlM next began [.fopen (some (1000, 3)), .dup 3 4, .close 4]).map (fun s =>
      (s.closes, s.os.calls, s.cleanClosedFiles.map fun t => (t.os.fds, t.os.calls))) =
      some ([(4, none)], [], some ([0, 1, 2, 4], [.fclose 1000])) := by decide
  obtain ⟨s, hs, heq⟩ := Option.map_eq_some_iff.mp hrun
  obtain ⟨hcloses, heq⟩ := Prod.mk.inj heq
  obtain ⟨hcalls, hclean⟩ := Prod.mk.inj heq
  have hr : Reachable (system.restrict fun _ c => OnFiles c) s := by
    refine .of_foldlM (fun s c t hc hs => ⟨?_, next_step hs⟩) (.init began_began) hs
    simp only [List.mem_cons, List.not_mem_nil, or_false] at hc
    rcases hc with rfl | rfl | rfl <;> trivial
  obtain ⟨t, rs, ht, hrs, hfds, -⟩ := h s hr
  rw [ht] at hclean
  have hopen : t.os.fds = [0, 1, 2, 4] := congrArg Prod.fst (Option.some.inj hclean)
  have hgone := ((hfds 4).mp (hopen ▸ by decide)).2
  rw [hcloses] at hgone
  exact hgone (by decide)

end State

end Fops

end DoubleTake
