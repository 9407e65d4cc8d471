import Mathlib.Data.List.Basic
import Mathlib.Data.List.Nodup
import Mathlib.Data.List.Perm.Basic
import Mathlib.Logic.Relation
import DoubleTake.Deferred

/-! What is put off to the end of an epoch: when each file and each directory that has been closed is really closed once by
    the thread that ends the epoch, and in which runs each region is unmapped once. The calls of other threads may come between
    any two steps of this thread. -/

namespace DoubleTake

open Transition

namespace Deferred

/-! ### Draining a list against a map -/

section cleanClosed

variable {κ ν : Type} [DecidableEq κ] {null : κ} {keys : List κ} {map closed rest : List (κ × ν)}

theorem mem_of_lookup {key : κ} {value : ν} (h : map.lookup key = some value) : key ∈ map.map (·.1) := by
  obtain ⟨e, he, heq⟩ := List.lookup_isSome_iff.mp (Option.isSome_of_eq_some h)
  exact List.mem_map.mpr ⟨e, he, (beq_iff_eq.mp heq).symm⟩

theorem lookup_eq_none_iff {key : κ} : map.lookup key = none ↔ key ∉ map.map (·.1) := by
  constructor
  · intro h hmem
    obtain ⟨e, he, heq⟩ := List.mem_map.mp hmem
    have hsome := List.lookup_isSome_iff.mpr ⟨e, he, beq_iff_eq.mpr heq.symm⟩
    rw [h] at hsome
    cases hsome
  · intro h
    cases hl : map.lookup key with
    | none => rfl
    | some value => exact absurd (mem_of_lookup hl) h

theorem nodup_append {key : κ} {value : ν} (hmap : (map.map (·.1)).Nodup) (h : map.lookup key = none) :
    ((map ++ [(key, value)]).map (·.1)).Nodup := by
  rw [List.map_append, List.map_singleton, ← List.concat_eq_append, List.nodup_concat]
  exact ⟨lookup_eq_none_iff.mp h, hmap⟩

omit [DecidableEq κ] in
theorem mem_append {key k : κ} {value : ν} :
    k ∈ (map ++ [(key, value)]).map (·.1) ↔ k ∈ map.map (·.1) ∨ k = key := by
  rw [List.map_append, List.mem_append, List.map_singleton, List.mem_singleton]

theorem map_eraseP (key : κ) (map : List (κ × ν)) :
    (map.eraseP (·.1 == key)).map (·.1) = (map.map (·.1)).erase key := by
  rw [List.erase_eq_eraseP', List.eraseP_map]
  rfl

theorem mem_of_lookup_eq {key : κ} {value : ν} (h : map.lookup key = some value) : (key, value) ∈ map := by
  obtain ⟨l₁, l₂, rfl, -⟩ := List.lookup_eq_some_iff.mp h
  exact List.mem_append_right _ List.mem_cons_self

theorem lookup_of_mem {key : κ} {value : ν} (hmap : (map.map (·.1)).Nodup) (h : (key, value) ∈ map) :
    map.lookup key = some value := by
  obtain ⟨value', hvalue⟩ : ∃ value', map.lookup key = some value' :=
    Option.ne_none_iff_exists'.mp fun hnone => lookup_eq_none_iff.mp hnone (List.mem_map_of_mem h)
  have heq := List.inj_on_of_nodup_map hmap (mem_of_lookup_eq hvalue) h rfl
  rw [hvalue, (Prod.mk.inj heq).2]

theorem eraseP_eq_filter (hmap : (map.map (·.1)).Nodup) (key : κ) : map.eraseP (·.1 == key) = map.filter (·.1 ≠ key) := by
  induction map with
  | nil => rfl
  | cons e map ih =>
    obtain ⟨hhead, htail⟩ := List.nodup_cons.mp hmap
    by_cases he : e.1 = key
    · have hother : map.filter (·.1 ≠ key) = map := by
        refine List.filter_eq_self.mpr fun e' he' => decide_eq_true fun heq => hhead ?_
        dsimp only
        rw [he, ← heq]
        exact List.mem_map_of_mem he'
      simp only [List.eraseP_cons, List.filter_cons, he, beq_self_eq_true, cond_true, ne_eq, not_true_eq_false, decide_false,
        Bool.false_eq_true, if_false, hother]
    · simp only [List.eraseP_cons, List.filter_cons, beq_false_of_ne he, cond_false, ne_eq, he, not_false_eq_true, decide_true,
        if_true, ih htail]

theorem cleanEntry_eq_some {key : κ} {r : (κ × ν) × List (κ × ν)} :
    cleanEntry key map = some r ↔ ∃ value, map.lookup key = some value ∧ r = ((key, value), map.eraseP (·.1 == key)) := by
  rw [cleanEntry, Option.bind_eq_bind, Option.bind_eq_some_iff]
  exact exists_congr fun value => and_congr_right fun _ => by rw [Option.some.injEq, eq_comm]

/-- What a drain that goes through has done. -/
theorem cleanClosed_some (hmap : (map.map (·.1)).Nodup) (hnull : null ∉ keys)
    (h : cleanClosed null keys map = some (closed, rest)) :
    closed.map (·.1) = keys ∧ keys.Nodup ∧ (∀ k ∈ keys, k ∈ map.map (·.1)) ∧
      rest.map (·.1) = (map.map (·.1)).diff keys := by
  induction keys generalizing map closed with
  | nil =>
    cases h
    exact ⟨rfl, List.nodup_nil, nofun, (List.diff_nil _).symm⟩
  | cons key keys ih =>
    have hkey : null ≠ key := List.ne_of_not_mem_cons hnull
    have hnull : null ∉ keys := List.not_mem_of_not_mem_cons hnull
    rw [cleanClosed, if_neg (Ne.symm hkey)] at h
    obtain ⟨r, hr, h⟩ := Option.bind_eq_some_iff.mp h
    obtain ⟨value, hvalue, rfl⟩ := cleanEntry_eq_some.mp hr
    obtain ⟨⟨closed', rest'⟩, hrest, h⟩ := Option.bind_eq_some_iff.mp h
    cases h
    have herase := map_eraseP key map
    obtain ⟨hclosed, hnodup, hkeys, hdiff⟩ := ih (by rw [herase]; exact hmap.erase key) hnull hrest
    rw [herase] at hkeys hdiff
    refine ⟨by rw [List.map_cons, hclosed], ?_, ?_, by rw [hdiff, List.diff_cons]⟩
    · refine List.nodup_cons.mpr ⟨fun hin => ?_, hnodup⟩
      exact hmap.not_mem_erase (hkeys key hin)
    · intro k hk
      rcases List.mem_cons.mp hk with rfl | hk
      · exact mem_of_lookup hvalue
      · exact List.mem_of_mem_erase (hkeys k hk)

/-- A drain goes through when no key is on the list more often than in the map. -/
theorem cleanClosed_isSome_iff :
    (cleanClosed null keys map).isSome ↔ ∀ k, k ≠ null → keys.count k ≤ (map.map (·.1)).count k := by
  induction keys generalizing map with
  | nil => exact iff_of_true rfl fun k _ => by rw [List.count_nil]; exact Nat.zero_le _
  | cons key keys ih =>
    rw [cleanClosed]
    by_cases hkey : key = null
    · rw [if_pos hkey, ih]
      refine forall₂_congr fun k hk => ?_
      rw [List.count_cons_of_ne (hkey.trans_ne hk.symm)]
    rw [if_neg hkey, cleanEntry]
    cases hvalue : map.lookup key with
    | none =>
      refine iff_of_false Bool.false_ne_true fun h => ?_
      have hle := h key hkey
      rw [List.count_cons_self, List.count_eq_zero.mpr (lookup_eq_none_iff.mp hvalue)] at hle
      omega
    | some value =>
      have hmem := mem_of_lookup hvalue
      have hrest : (cleanClosed null (key :: keys) map).isSome = (cleanClosed null keys (map.eraseP (·.1 == key))).isSome := by
        rw [cleanClosed, if_neg hkey, cleanEntry, hvalue]
        simp only [Option.bind_eq_bind, Option.bind_some]
        cases cleanClosed null keys (map.eraseP (·.1 == key)) <;> rfl
      rw [cleanClosed, if_neg hkey, cleanEntry, hvalue] at hrest
      rw [hrest, ih, map_eraseP]
      refine forall₂_congr fun k hk => ?_
      by_cases heq : k = key
      · subst heq
        have hpos := List.count_pos_iff.mpr hmem
        rw [List.count_cons_self, List.count_erase_self]
        omega
      · rw [List.count_cons_of_ne (Ne.symm heq), List.count_erase_of_ne heq]

/-- What is closed are entries of the map, and what is left of it are others. -/
theorem cleanClosed_entries (h : cleanClosed null keys map = some (closed, rest)) :
    (∀ e ∈ closed, e ∈ map) ∧ ∀ e ∈ rest, e ∈ map := by
  induction keys generalizing map closed with
  | nil =>
    cases h
    exact ⟨fun e he => absurd he List.not_mem_nil, fun e he => he⟩
  | cons key keys ih =>
    rw [cleanClosed] at h
    split at h
    · exact ih h
    · obtain ⟨r, hr, h⟩ := Option.bind_eq_some_iff.mp h
      obtain ⟨value, hvalue, rfl⟩ := cleanEntry_eq_some.mp hr
      obtain ⟨⟨closed', rest'⟩, hrest, h⟩ := Option.bind_eq_some_iff.mp h
      cases h
      obtain ⟨hclosed, hleft⟩ := ih hrest
      refine ⟨fun e he => ?_, fun e he => List.mem_of_mem_eraseP (hleft e he)⟩
      rcases List.mem_cons.mp he with rfl | he
      · exact mem_of_lookup_eq hvalue
      · exact List.mem_of_mem_eraseP (hclosed e he)

/-- With one entry for each key, the entries of the other keys are left. -/
theorem cleanClosed_rest (hmap : (map.map (·.1)).Nodup) (hnull : null ∉ keys)
    (h : cleanClosed null keys map = some (closed, rest)) : rest = map.filter (·.1 ∉ keys) := by
  induction keys generalizing map closed with
  | nil =>
    cases h
    exact (List.filter_eq_self.mpr fun e _ => decide_eq_true List.not_mem_nil).symm
  | cons key keys ih =>
    have hkey : null ≠ key := List.ne_of_not_mem_cons hnull
    have hnull : null ∉ keys := List.not_mem_of_not_mem_cons hnull
    rw [cleanClosed, if_neg (Ne.symm hkey)] at h
    obtain ⟨r, hr, h⟩ := Option.bind_eq_some_iff.mp h
    obtain ⟨value, -, rfl⟩ := cleanEntry_eq_some.mp hr
    obtain ⟨⟨closed', rest'⟩, hrest, h⟩ := Option.bind_eq_some_iff.mp h
    cases h
    rw [eraseP_eq_filter hmap key] at hrest
    rw [ih (hmap.sublist (List.filter_sublist.map _)) hnull hrest, List.filter_filter]
    refine List.filter_congr fun e _ => ?_
    rw [Bool.and_comm, ← Bool.decide_and]
    exact decide_eq_decide.mpr (by rw [List.mem_cons, not_or])

/-- The entries of a key stand in the order in which they have been inserted, and the first of them is erased. -/
theorem filter_eraseP_self (key : κ) :
    (map.eraseP (·.1 == key)).filter (·.1 = key) = (map.filter (·.1 = key)).tail := by
  induction map with
  | nil => rfl
  | cons e map ih =>
    by_cases he : e.1 = key
    · simp [List.eraseP_cons, he]
    · simp [List.eraseP_cons, he, ih]

theorem filter_eraseP_of_ne {key k : κ} (h : k ≠ key) :
    (map.eraseP (·.1 == key)).filter (·.1 = k) = map.filter (·.1 = k) := by
  induction map with
  | nil => rfl
  | cons e map ih =>
    by_cases he : e.1 = key
    · have hne : e.1 ≠ k := fun heq => h (heq.symm.trans he)
      simp [List.eraseP_cons, he, he ▸ hne]
    · simp [List.eraseP_cons, he, List.filter_cons, ih]

theorem lookup_isSome_iff {key : κ} : (map.lookup key).isSome ↔ map.filter (·.1 = key) ≠ [] := by
  rw [Option.isSome_iff_ne_none, ne_eq, lookup_eq_none_iff, not_not, List.mem_map, ne_eq, List.filter_eq_nil_iff, not_forall]
  exact exists_congr fun e => by simp

end cleanClosed

namespace State

variable {s s' x : State} {c : Call} {t u : Nat} {key : Key}

/-! ### What a step does to the maps -/

/-- What a step does to the entries, to what has really been closed, and to the closes that are noted. -/
inductive MapStep (s s' : State) : Prop where
  | kept : s'.entries = s.entries → s'.realCloses = s.realCloses → s'.numbers = s.numbers → s'.closed ⊆ s.closed → MapStep s s'
  | inserted (key : Key) : s'.entries = Function.update s.entries key (s.entries key ++ [s.numbers]) →
      s'.realCloses = s.realCloses → s'.numbers = s.numbers + 1 → s'.closed = s.closed → MapStep s s'
  | noted (c : Closed) : s'.entries = s.entries → s'.realCloses = s.realCloses → s'.numbers = s.numbers →
      s'.closed = s.closed ++ [c] → c.before = s.realCloses c.key → c.entries = s.entries c.key → MapStep s s'
  | cleaned (key : Key) : s.entries key ≠ [] → s'.entries = Function.update s.entries key (s.entries key).tail →
      s'.realCloses = Function.update s.realCloses key (s.realCloses key + 1) → s'.numbers = s.numbers → s'.closed = s.closed →
      MapStep s s'

/-- Nothing of it has changed. -/
theorem MapStep.of_eq (hfiles : s'.filesMap = s.filesMap) (hdirs : s'.dirsMap = s.dirsMap) (hnumbers : s'.numbers = s.numbers)
    (hfilesClosed : s'.filesClosed = s.filesClosed) (hdirsClosed : s'.dirsClosed = s.dirsClosed) (hclosed : s'.closed ⊆ s.closed) :
    MapStep s s' := by
  refine .kept (funext fun key => ?_) (funext fun key => ?_) hnumbers hclosed
  · cases key with
    | inl fd => exact congrArg (fun m => (List.filter (fun e : Int × FileInfo => e.1 = fd) m).map (·.2.number)) hfiles
    | inr dir => exact congrArg (fun m => (List.filter (fun e : Nat × DirInfo => e.1 = dir) m).map (·.2.number)) hdirs
  · cases key with
    | inl fd => exact congrArg (fun l => (l.map Prod.fst).count fd) hfilesClosed
    | inr dir => exact congrArg (fun l => (l.map Prod.fst).count dir) hdirsClosed

theorem insertFile_mapStep (fd : Int) (origStream : Option Nat) : MapStep s (s.insertFile fd origStream) := by
  refine .inserted (.inl fd) (funext fun key => ?_) rfl rfl rfl
  cases key with
  | inl fd' =>
    by_cases h : fd' = fd
    · subst h
      simp [entries, insertFile]
    · rw [Function.update_of_ne (fun heq => h (Sum.inl.inj heq))]
      simp [entries, insertFile, Ne.symm h]
  | inr dir => exact (Function.update_of_ne Sum.inr_ne_inl _ _).symm

theorem insertDir_mapStep (dir : Nat) : MapStep s (s.insertDir dir) := by
  refine .inserted (.inr dir) (funext fun key => ?_) rfl rfl rfl
  cases key with
  | inl fd => exact (Function.update_of_ne Sum.inl_ne_inr _ _).symm
  | inr dir' =>
    by_cases h : dir' = dir
    · subst h
      simp [entries, insertDir]
    · rw [Function.update_of_ne (fun heq => h (Sum.inr.inj heq))]
      simp [entries, insertDir, Ne.symm h]

/-- A close with the result `ret`, of something that is put on a list or not. -/
theorem noteClose_mapStep {x : State} {ret : Int} (hentries : x.entries = s.entries) (hreal : x.realCloses = s.realCloses)
    (hnumbers : x.numbers = s.numbers) (hclosed : x.closed = s.closed) : MapStep s (x.noteClose t key ret) := by
  rw [noteClose]
  split
  · refine .noted ⟨t, key, x.realCloses key, x.entries key⟩ hentries hreal hnumbers ?_ (congrFun hreal key) (congrFun hentries key)
    exact congrArg (· ++ _) hclosed
  · exact .kept hentries hreal hnumbers (hclosed ▸ List.Subset.refl _)

theorem closeFile_mapStep {fd : Int} {fp : Option Nat} {r : State × Int} (h : s.closeFile t fd fp = some r) :
    MapStep s (r.1.noteClose t (.inl fd) r.2) := by
  rw [closeFile] at h
  split at h
  · cases h
    exact noteClose_mapStep rfl rfl rfl rfl
  · obtain ⟨thisFile, -, h⟩ := Option.bind_eq_some_iff.mp h
    cases h
    exact noteClose_mapStep rfl rfl rfl rfl

theorem closeDir_mapStep {dir : Nat} {r : State × Int} (h : s.closeDir t dir = some r) :
    MapStep s (r.1.noteClose t (.inr dir) r.2) := by
  obtain ⟨thisDir, -, h⟩ := Option.bind_eq_some_iff.mp h
  cases h
  exact noteClose_mapStep rfl rfl rfl rfl

theorem epochEnd_eq (h : s.epochEnd t = some s') : s.stage = .none ∧ s' = { s with stage := .files t } := by
  rw [epochEnd] at h
  split at h <;> cases h
  exact ⟨‹_›, rfl⟩

theorem epochEnd_mapStep (h : s.epochEnd t = some s') : MapStep s s' := by
  obtain ⟨-, rfl⟩ := epochEnd_eq h
  exact .of_eq rfl rfl rfl rfl rfl (List.Subset.refl _)

theorem saveDupFd_mapStep {oldfd newfd : Int} (h : s.saveDupFd oldfd newfd = some s') : MapStep s s' := by
  rw [saveDupFd] at h
  split at h
  · obtain ⟨thisFile, -, h⟩ := Option.bind_eq_some_iff.mp h
    cases h
    exact insertFile_mapStep newfd _
  · cases h
    exact .of_eq rfl rfl rfl rfl rfl (List.Subset.refl _)

theorem removeAliveThread_eq (h : s.removeAliveThread u = some s') : u ∈ s.alive ∧ s' = { s with alive := s.alive.erase u } := by
  rw [removeAliveThread] at h
  split at h <;> cases h
  exact ⟨‹_›, rfl⟩

theorem run_mapStep (h : s.run c = some s') : MapStep s s' := by
  cases c with
  | «open» t fd file =>
    simp only [State.run] at h
    split at h <;> cases h
    rw [saveFd]
    split
    · exact insertFile_mapStep fd file
    · exact .of_eq rfl rfl rfl rfl rfl (List.Subset.refl _)
  | dup t oldfd ret =>
    simp only [State.run] at h
    split at h
    · exact epochEnd_mapStep h
    · split at h
      · exact saveDupFd_mapStep h
      · cases h
  | dup2 t oldfd newfd ret =>
    simp only [State.run] at h
    split at h
    · exact epochEnd_mapStep h
    · split at h
      · exact saveDupFd_mapStep h
      · cases h
  | opendir t dir =>
    simp only [State.run] at h
    split at h <;> cases h
    rw [saveDir]
    split
    · exact insertDir_mapStep dir
    · exact .of_eq rfl rfl rfl rfl rfl (List.Subset.refl _)
  | close t fd fp =>
    simp only [State.run] at h
    split at h
    · exact epochEnd_mapStep h
    · obtain ⟨r, hr, rfl⟩ := Option.map_eq_some_iff.mp h
      exact closeFile_mapStep hr
  | closedir t dir =>
    obtain ⟨r, hr, rfl⟩ := Option.map_eq_some_iff.mp h
    exact closeDir_mapStep hr
  | munmap t region =>
    cases h
    exact .of_eq rfl rfl rfl rfl rfl (List.Subset.refl _)
  | threadCreate t u =>
    simp only [State.run] at h
    split at h <;> cases h
    exact .of_eq rfl rfl rfl rfl rfl List.filter_sublist.subset
  | finish t =>
    cases h
    exact .of_eq rfl rfl rfl rfl rfl (List.Subset.refl _)
  | join t u =>
    simp only [State.run] at h
    split at h <;> cases h
    exact .of_eq rfl rfl rfl rfl rfl (List.Subset.refl _)
  | deferSync t u =>
    simp only [State.run] at h
    split at h <;> cases h
    exact .of_eq rfl rfl rfl rfl rfl (List.Subset.refl _)
  | cancel t u =>
    simp only [State.run] at h
    split at h
    · obtain ⟨-, rfl⟩ := removeAliveThread_eq h
      exact .of_eq rfl rfl rfl rfl rfl (List.Subset.refl _)
    · cases h
  | commit t => exact epochEnd_mapStep h
  | go t => cases h

/-! ### The thread that ends the epoch -/

theorem cleanFile_cases {fd : Int} {fds : List Int} (h : s.cleanFile t fd fds = some s') :
    (fd = -1 ∧ s' = { s with fileClose := Function.update s.fileClose t fds }) ∨
      fd ≠ -1 ∧ ∃ file filesMap, cleanEntry fd s.filesMap = some (file, filesMap) ∧
        s' = { s with
          fileClose := Function.update s.fileClose t fds
          filesMap := filesMap
          filesClosed := s.filesClosed ++ [file] } := by
  rw [cleanFile] at h
  split at h
  · cases h
    exact .inl ⟨‹_›, rfl⟩
  · obtain ⟨⟨file, filesMap⟩, hentry, h⟩ := Option.bind_eq_some_iff.mp h
    cases h
    exact .inr ⟨‹_›, file, filesMap, hentry, rfl⟩

theorem cleanDir_cases {dir : Nat} {dirs : List Nat} (h : s.cleanDir t dir dirs = some s') :
    (dir = 0 ∧ s' = { s with dirClose := Function.update s.dirClose t dirs }) ∨
      dir ≠ 0 ∧ ∃ thisDir dirsMap, cleanEntry dir s.dirsMap = some (thisDir, dirsMap) ∧
        s' = { s with
          dirClose := Function.update s.dirClose t dirs
          dirsMap := dirsMap
          dirsClosed := s.dirsClosed ++ [thisDir] } := by
  rw [cleanDir] at h
  split at h
  · cases h
    exact .inl ⟨‹_›, rfl⟩
  · obtain ⟨⟨thisDir, dirsMap⟩, hentry, h⟩ := Option.bind_eq_some_iff.mp h
    cases h
    exact .inr ⟨‹_›, thisDir, dirsMap, hentry, rfl⟩

/-- An entry of a file is closed and erased. -/
theorem cleanedFile_mapStep {fd : Int} {fds : List Int} {file : Int × FileInfo} {filesMap : List (Int × FileInfo)}
    (h : cleanEntry fd s.filesMap = some (file, filesMap)) : MapStep s { s with
      fileClose := Function.update s.fileClose t fds
      filesMap := filesMap
      filesClosed := s.filesClosed ++ [file] } := by
  obtain ⟨info, hinfo, heq⟩ := cleanEntry_eq_some.mp h
  cases heq
  refine .cleaned (.inl fd) ?_ (funext fun key => ?_) (funext fun key => ?_) rfl rfl
  · exact fun hnil => lookup_isSome_iff.mp (Option.isSome_of_eq_some hinfo) (List.map_eq_nil_iff.mp hnil)
  · cases key with
    | inl fd' =>
      by_cases hfd : fd' = fd
      · subst hfd
        simp only [entries, Function.update_self, filter_eraseP_self, List.map_tail]
      · rw [Function.update_of_ne (fun heq => hfd (Sum.inl.inj heq))]
        simp only [entries, filter_eraseP_of_ne hfd]
    | inr dir => exact (Function.update_of_ne Sum.inr_ne_inl _ _).symm
  · cases key with
    | inl fd' =>
      by_cases hfd : fd' = fd
      · subst hfd
        simp [realCloses]
      · rw [Function.update_of_ne (fun heq => hfd (Sum.inl.inj heq))]
        simp [realCloses, Ne.symm hfd]
    | inr dir => exact (Function.update_of_ne Sum.inr_ne_inl _ _).symm

theorem cleanedDir_mapStep {dir : Nat} {dirs : List Nat} {thisDir : Nat × DirInfo} {dirsMap : List (Nat × DirInfo)}
    (h : cleanEntry dir s.dirsMap = some (thisDir, dirsMap)) : MapStep s { s with
      dirClose := Function.update s.dirClose t dirs
      dirsMap := dirsMap
      dirsClosed := s.dirsClosed ++ [thisDir] } := by
  obtain ⟨info, hinfo, heq⟩ := cleanEntry_eq_some.mp h
  cases heq
  refine .cleaned (.inr dir) ?_ (funext fun key => ?_) (funext fun key => ?_) rfl rfl
  · exact fun hnil => lookup_isSome_iff.mp (Option.isSome_of_eq_some hinfo) (List.map_eq_nil_iff.mp hnil)
  · cases key with
    | inl fd => exact (Function.update_of_ne Sum.inl_ne_inr _ _).symm
    | inr dir' =>
      by_cases hdir : dir' = dir
      · subst hdir
        simp only [entries, Function.update_self, filter_eraseP_self, List.map_tail]
      · rw [Function.update_of_ne (fun heq => hdir (Sum.inr.inj heq))]
        simp only [entries, filter_eraseP_of_ne hdir]
  · cases key with
    | inl fd => exact (Function.update_of_ne Sum.inl_ne_inr _ _).symm
    | inr dir' =>
      by_cases hdir : dir' = dir
      · subst hdir
        simp [realCloses]
      · rw [Function.update_of_ne (fun heq => hdir (Sum.inr.inj heq))]
        simp [realCloses, Ne.symm hdir]

theorem foldlM_removeAliveThread {l : List Nat} (h : l.foldlM removeAliveThread s = some s') :
    (∀ u ∈ s.alive, u ∉ s'.alive → u ∈ l) ∧ s'.alive ⊆ s.alive ∧ s' = { s with alive := s'.alive } := by
  induction l generalizing s with
  | nil =>
    cases h
    exact ⟨fun u hu hnot => absurd hu hnot, List.Subset.refl _, rfl⟩
  | cons v l ih =>
    rw [List.foldlM_cons] at h
    obtain ⟨x, hx, h⟩ := Option.bind_eq_some_iff.mp h
    obtain ⟨-, rfl⟩ := removeAliveThread_eq hx
    obtain ⟨hgone, hsub, heq⟩ := ih h
    refine ⟨fun u hu hnot => ?_, List.Subset.trans hsub List.erase_subset, heq⟩
    by_cases huv : u = v
    · exact huv ▸ List.mem_cons_self
    · exact List.mem_cons_of_mem _ (hgone u ((List.mem_erase_of_ne huv).mpr hu) hnot)

/-- What a step of the thread that ends the epoch does, by the place where it is. -/
inductive GoStep (s : State) : State → Prop where
  | nullFile (t : Nat) (fds : List Int) : s.stage = .files t → s.fileClose t = -1 :: fds →
      GoStep s { s with fileClose := Function.update s.fileClose t fds }
  | file (t : Nat) (fd : Int) (fds : List Int) (file : Int × FileInfo) (filesMap : List (Int × FileInfo)) : s.stage = .files t →
      s.fileClose t = fd :: fds → fd ≠ -1 → cleanEntry fd s.filesMap = some (file, filesMap) →
      GoStep s { s with
        fileClose := Function.update s.fileClose t fds
        filesMap := filesMap
        filesClosed := s.filesClosed ++ [file] }
  | filesDone (t : Nat) : s.stage = .files t → s.fileClose t = [] → GoStep s { s with stage := .dirs t }
  | nullDir (t : Nat) (dirs : List Nat) : s.stage = .dirs t → s.dirClose t = 0 :: dirs →
      GoStep s { s with dirClose := Function.update s.dirClose t dirs }
  | dir (t dir : Nat) (dirs : List Nat) (thisDir : Nat × DirInfo) (dirsMap : List (Nat × DirInfo)) : s.stage = .dirs t →
      s.dirClose t = dir :: dirs → dir ≠ 0 → cleanEntry dir s.dirsMap = some (thisDir, dirsMap) →
      GoStep s { s with
        dirClose := Function.update s.dirClose t dirs
        dirsMap := dirsMap
        dirsClosed := s.dirsClosed ++ [thisDir] }
  | dirsDone (t : Nat) : s.stage = .dirs t → s.dirClose t = [] → GoStep s { s with stage := .next t 0 }
  | skip (t i u : Nat) : s.stage = .next t i → s.alive[i]? = some u → s.skipped t u →
      GoStep s { s.endFor u with stage := .next t (i + 1) }
  | visit (t i u : Nat) : s.stage = .next t i → s.alive[i]? = some u → ¬ s.skipped t u →
      GoStep s { s with stage := .drain t i u }
  | done (t i : Nat) (alive : List Nat) : s.stage = .next t i → s.alive[i]? = none → alive ⊆ s.alive →
      (∀ u ∈ s.alive, u ∉ alive → u ∈ s.deferSyncs) →
      GoStep s { s.endForOthers with stage := .none, deferSyncs := [], alive := alive }
  | unmap (t i u : Nat) (region : Region) (regions : List Region) : s.stage = .drain t i u → s.munmap u = region :: regions →
      GoStep s { s with munmap := Function.update s.munmap u regions, unmapped := s.unmapped ++ [region] }
  | drained (t i u : Nat) : s.stage = .drain t i u → s.munmap u = [] → GoStep s { s with stage := .reset t i u }
  | reset (t i u : Nat) : s.stage = .reset t i u → GoStep s { (s.endFor u).initLists u with stage := .next t (i + 1) }

theorem go_cases (h : s.go = some s') : GoStep s s' := by
  rw [go] at h
  split at h
  · cases h
  · rename_i t hst
    split at h
    · rename_i fd fds hlist
      rcases cleanFile_cases h with ⟨rfl, rfl⟩ | ⟨hfd, file, filesMap, hentry, rfl⟩
      · exact .nullFile t fds hst hlist
      · exact .file t fd fds file filesMap hst hlist hfd hentry
    · cases h
      exact .filesDone t hst ‹_›
  · rename_i t hst
    split at h
    · rename_i dir dirs hlist
      rcases cleanDir_cases h with ⟨rfl, rfl⟩ | ⟨hdir, thisDir, dirsMap, hentry, rfl⟩
      · exact .nullDir t dirs hst hlist
      · exact .dir t dir dirs thisDir dirsMap hst hlist hdir hentry
    · cases h
      exact .dirsDone t hst ‹_›
  · rename_i t i hst
    split at h
    · rename_i u hu
      split at h <;> cases h
      · exact .skip t i u hst hu ‹_›
      · exact .visit t i u hst hu ‹_›
    · rename_i hnone
      obtain ⟨hgone, hsub, heq⟩ := foldlM_removeAliveThread h
      rw [heq]
      exact .done t i s'.alive hst hnone hsub hgone
  · rename_i t i u hst
    split at h
    · cases h
      exact .unmap t i u _ _ hst ‹_›
    · cases h
      exact .drained t i u hst ‹_›
  · rename_i t i u hst
    cases h
    exact .reset t i u hst

theorem go_mapStep (h : s.go = some s') : MapStep s s' := by
  cases go_cases h with
  | file t fd fds file filesMap _ _ _ hentry => exact cleanedFile_mapStep hentry
  | dir t dir dirs thisDir dirsMap _ _ _ hentry => exact cleanedDir_mapStep hentry
  | nullFile | filesDone | nullDir | dirsDone | visit | done | unmap | drained =>
    exact .of_eq rfl rfl rfl rfl rfl (List.Subset.refl _)
  | skip | reset => exact .of_eq rfl rfl rfl rfl rfl List.filter_sublist.subset

/-- A step is one of the thread that ends the epoch, or a call of another thread that runs. -/
theorem exec_cases (h : s.exec c = some s') :
    (s.stage.committer = some c.thread ∧ s.go = some s') ∨
      s.stage.committer ≠ some c.thread ∧ s.running c.thread = true ∧ s.run c = some s' := by
  rw [exec] at h
  split at h
  · rename_i hcommitter
    split at h
    · exact .inl ⟨hcommitter, h⟩
    · cases h
  · rename_i hcommitter
    split at h
    · exact .inr ⟨hcommitter, ‹_›, h⟩
    · cases h

theorem exec_mapStep (h : s.exec c = some s') : MapStep s s' := by
  rcases exec_cases h with ⟨-, hgo⟩ | ⟨-, -, hrun⟩
  · exact go_mapStep hgo
  · exact run_mapStep hrun

theorem running_iff : s.running u = true ↔ u ∈ s.alive ∧ s.finished u = false := by
  rw [running, Bool.and_eq_true, decide_eq_true_eq, Bool.not_eq_true']

/-! ### Closes -/

/-- A close that is noted: since then entries have been erased from the front, as often as it has really been closed, and new ones
    have come at the end. -/
structure Traced (s : State) (c : Closed) : Prop where
  before : c.before ≤ s.realCloses c.key
  bound : ∀ n ∈ c.entries, n < s.numbers
  entries : ∃ newer, s.entries c.key = (c.entries ++ newer).drop (s.realCloses c.key - c.before) ∧
    s.realCloses c.key - c.before ≤ (c.entries ++ newer).length ∧ ∀ n ∈ newer, n ∉ c.entries

/-- What holds of the maps and of the closes that are noted. -/
structure Noted (s : State) : Prop where
  numbers : ∀ key, ∀ n ∈ s.entries key, n < s.numbers
  closed : ∀ c ∈ s.closed, s.Traced c

theorem Traced.of_eq {c : Closed} (h : s.Traced c) (hentries : s'.entries = s.entries) (hreal : s'.realCloses = s.realCloses)
    (hnumbers : s'.numbers = s.numbers) : s'.Traced c := by
  refine ⟨?_, ?_, ?_⟩
  · rw [hreal]
    exact h.before
  · rw [hnumbers]
    exact h.bound
  · rw [hentries, hreal]
    exact h.entries

theorem Traced.inserted {c : Closed} (h : s.Traced c)
    (hentries : s'.entries = Function.update s.entries key (s.entries key ++ [s.numbers])) (hreal : s'.realCloses = s.realCloses)
    (hnumbers : s'.numbers = s.numbers + 1) : s'.Traced c := by
  refine ⟨by rw [hreal]; exact h.before, fun n hn => by rw [hnumbers]; exact Nat.lt_succ_of_lt (h.bound n hn), ?_⟩
  obtain ⟨newer, heq, hle, hnew⟩ := h.entries
  rw [hentries, hreal]
  by_cases hkey : c.key = key
  · refine ⟨newer ++ [s.numbers], ?_, ?_, fun n hn => ?_⟩
    · rw [← hkey, Function.update_self, heq, ← List.append_assoc, List.drop_append_of_le_length hle]
    · rw [← List.append_assoc, List.length_append]
      omega
    · rcases List.mem_append.mp hn with hn | hn
      · exact hnew n hn
      · rw [List.mem_singleton.mp hn]
        exact fun hmem => Nat.lt_irrefl _ (h.bound _ hmem)
  · rw [Function.update_of_ne hkey]
    exact ⟨newer, heq, hle, hnew⟩

theorem Traced.cleaned {c : Closed} (h : s.Traced c) (hne : s.entries key ≠ [])
    (hentries : s'.entries = Function.update s.entries key (s.entries key).tail)
    (hreal : s'.realCloses = Function.update s.realCloses key (s.realCloses key + 1)) (hnumbers : s'.numbers = s.numbers) :
    s'.Traced c := by
  obtain ⟨newer, heq, hle, hnew⟩ := h.entries
  have hbefore := h.before
  by_cases hkey : c.key = key
  · subst hkey
    have hreal' : s'.realCloses c.key = s.realCloses c.key + 1 := by rw [hreal, Function.update_self]
    have hsub : s'.realCloses c.key - c.before = s.realCloses c.key - c.before + 1 := by omega
    refine ⟨by omega, fun n hn => hnumbers ▸ h.bound n hn, newer, ?_, ?_, hnew⟩
    · rw [hentries, Function.update_self, heq, hsub, List.tail_drop]
    · have hlt : s.realCloses c.key - c.before < (c.entries ++ newer).length :=
        Nat.lt_of_not_le fun hge => hne (heq.trans (List.drop_eq_nil_iff.mpr hge))
      omega
  · have hreal' : s'.realCloses c.key = s.realCloses c.key := by rw [hreal, Function.update_of_ne hkey]
    refine ⟨hreal' ▸ hbefore, fun n hn => hnumbers ▸ h.bound n hn, newer, ?_, hreal' ▸ hle, hnew⟩
    rw [hentries, Function.update_of_ne hkey, hreal', heq]

theorem Noted.step (h : s.Noted) (hs : MapStep s s') : s'.Noted := by
  cases hs with
  | kept hentries hreal hnumbers hclosed =>
    refine ⟨?_, fun c hc => (h.closed c (hclosed hc)).of_eq hentries hreal hnumbers⟩
    rw [hentries, hnumbers]
    exact h.numbers
  | inserted key hentries hreal hnumbers hclosed =>
    refine ⟨fun k n hn => ?_, fun c hc => (h.closed c (hclosed ▸ hc)).inserted hentries hreal hnumbers⟩
    rw [hnumbers]
    rw [hentries] at hn
    by_cases hk : k = key
    · rw [hk, Function.update_self] at hn
      rcases List.mem_append.mp hn with hn | hn
      · exact Nat.lt_succ_of_lt (h.numbers key n hn)
      · rw [List.mem_singleton.mp hn]
        exact Nat.lt_succ_self _
    · rw [Function.update_of_ne hk] at hn
      exact Nat.lt_succ_of_lt (h.numbers k n hn)
  | noted c hentries hreal hnumbers hclosed hbefore hclosedEntries =>
    refine ⟨by rw [hentries, hnumbers]; exact h.numbers, fun c' hc' => ?_⟩
    rw [hclosed] at hc'
    rcases List.mem_append.mp hc' with hc' | hc'
    · exact (h.closed c' hc').of_eq hentries hreal hnumbers
    · rw [List.mem_singleton.mp hc']
      refine ⟨Nat.le_of_eq (hbefore.trans (congrFun hreal c.key).symm), fun n hn => ?_, [], ?_, ?_, nofun⟩
      · rw [hnumbers]
        exact h.numbers c.key n (hclosedEntries ▸ hn)
      · rw [hentries, hreal, hbefore, Nat.sub_self, List.append_nil, List.drop_zero, hclosedEntries]
      · rw [hreal, hbefore, Nat.sub_self]
        exact Nat.zero_le _
  | cleaned key hne hentries hreal hnumbers hclosed =>
    refine ⟨fun k n hn => ?_, fun c hc => (h.closed c (hclosed ▸ hc)).cleaned hne hentries hreal hnumbers⟩
    rw [hnumbers]
    rw [hentries] at hn
    by_cases hk : k = key
    · rw [hk, Function.update_self] at hn
      exact h.numbers key n (List.mem_of_mem_tail hn)
    · rw [Function.update_of_ne hk] at hn
      exact h.numbers k n hn

theorem entries_began (h : s.Began) (key : Key) : s.entries key = [] := by
  cases key with
  | inl fd => simp [State.entries, h.filesMap]
  | inr dir => simp [State.entries, h.dirsMap]

theorem Noted.began (h : s.Began) : s.Noted := by
  refine ⟨fun key n hn => ?_, fun c hc => ?_⟩
  · rw [entries_began h] at hn
    cases hn
  · rw [h.closed] at hc
    cases hc

theorem reachable_noted (h : Reachable system s) : s.Noted :=
  Reachable.invariant (S := system) (P := Noted) (fun _ h => .began h) (fun _ _ _ h hs => h.step (exec_mapStep hs)) h

/-- It has really been closed once since the close, and the entries that it had are gone. -/
structure Done (s : State) (c : Closed) : Prop where
  once : s.realCloses c.key = c.before + 1
  removed : ∀ n ∈ c.entries, n ∉ s.entries c.key

theorem Traced.done_iff {c : Closed} (h : s.Traced c) : s.Done c ↔ s.realCloses c.key = c.before + 1 ∧ c.entries.length ≤ 1 := by
  have hone (honce : s.realCloses c.key = c.before + 1) : s.realCloses c.key - c.before = 1 := by omega
  obtain ⟨newer, heq, -, hnew⟩ := h.entries
  constructor
  · rintro ⟨honce, hremoved⟩
    refine ⟨honce, Nat.le_of_not_lt fun hlt => ?_⟩
    rw [hone honce] at heq
    -- the second entry is still there
    match hentries : c.entries, hlt with
    | n :: m :: rest, _ =>
      refine hremoved m (by rw [hentries]; exact .tail _ (.head _)) ?_
      rw [heq, hentries]
      exact List.mem_cons_self
  · rintro ⟨honce, hlength⟩
    refine ⟨honce, fun n hn => ?_⟩
    rw [hone honce] at heq
    rw [heq]
    match hentries : c.entries, hlength with
    | [], _ => simp [hentries] at hn
    | [m], _ => exact fun hmem => hnew n hmem hn

/-! ### The lists that are drained -/

/-- Null is on no list of a thread and in no map. -/
structure NoNull (s : State) : Prop where
  fileClose : ∀ u, -1 ∉ s.fileClose u
  dirClose : ∀ u, 0 ∉ s.dirClose u
  files : s.entries (.inl (-1)) = []
  dirs : s.entries (.inr 0) = []

theorem mem_update_append {α : Type} {f : Nat → List α} {a b : α} (h : b ∈ Function.update f t (f t ++ [a]) u) :
    b ∈ f u ∨ b = a := by
  by_cases hu : u = t
  · subst hu
    rw [Function.update_self] at h
    exact (List.mem_append.mp h).imp_right List.mem_singleton.mp
  · rw [Function.update_of_ne hu] at h
    exact .inl h

theorem mem_update_of_subset {α : Type} {f : Nat → List α} {l : List α} {b : α} (hl : l ⊆ f t) (h : b ∈ Function.update f t l u) :
    b ∈ f u := by
  by_cases hu : u = t
  · subst hu
    rw [Function.update_self] at h
    exact hl h
  · rwa [Function.update_of_ne hu] at h

theorem lookup_file_isSome {fd : Int} : (s.filesMap.lookup fd).isSome ↔ s.entries (.inl fd) ≠ [] :=
  lookup_isSome_iff.trans (not_congr List.map_eq_nil_iff.symm)

theorem lookup_dir_isSome {dir : Nat} : (s.dirsMap.lookup dir).isSome ↔ s.entries (.inr dir) ≠ [] :=
  lookup_isSome_iff.trans (not_congr List.map_eq_nil_iff.symm)

/-- Nothing has been put on a list, and no entry of null into a map. -/
theorem NoNull.mono (h : s.NoNull) (hfile : ∀ u, s'.fileClose u ⊆ s.fileClose u) (hdir : ∀ u, s'.dirClose u ⊆ s.dirClose u)
    (hentries : ∀ key, s.entries key = [] → s'.entries key = []) : s'.NoNull :=
  ⟨fun u hu => h.fileClose u (hfile u hu), fun u hu => h.dirClose u (hdir u hu), hentries _ h.files, hentries _ h.dirs⟩

theorem NoNull.insertFile {fd : Int} {origStream : Option Nat} (h : s.NoNull) (hfd : fd ≠ -1) : (s.insertFile fd origStream).NoNull := by
  refine { h with files := ?_ }
  have hfilter : (s.insertFile fd origStream).entries (.inl (-1)) = s.entries (.inl (-1)) := by
    simp [State.entries, State.insertFile, hfd]
  exact hfilter.trans h.files

theorem NoNull.insertDir {dir : Nat} (h : s.NoNull) (hdir : dir ≠ 0) : (s.insertDir dir).NoNull := by
  refine { h with dirs := ?_ }
  have hfilter : (s.insertDir dir).entries (.inr 0) = s.entries (.inr 0) := by
    simp [State.entries, State.insertDir, hdir]
  exact hfilter.trans h.dirs

theorem NoNull.noteClose {ret : Int} (h : s.NoNull) : (s.noteClose t key ret).NoNull := by
  rw [State.noteClose]
  split
  · exact { h with }
  · exact h

theorem NoNull.closeFile {fd : Int} {fp : Option Nat} {r : State × Int} (h : s.NoNull) (hs : s.closeFile t fd fp = some r) :
    r.1.NoNull := by
  rw [State.closeFile] at hs
  split at hs
  · cases hs
    exact h
  · obtain ⟨thisFile, hfile, hs⟩ := Option.bind_eq_some_iff.mp hs
    cases hs
    refine { h with fileClose := fun u hu => ?_ }
    rcases mem_update_append hu with hu | rfl
    · exact h.fileClose u hu
    · exact lookup_file_isSome.mp (Option.isSome_of_eq_some hfile) h.files

theorem NoNull.closeDir {dir : Nat} {r : State × Int} (h : s.NoNull) (hs : s.closeDir t dir = some r) : r.1.NoNull := by
  obtain ⟨thisDir, hfind, hs⟩ := Option.bind_eq_some_iff.mp hs
  cases hs
  refine { h with dirClose := fun u hu => ?_ }
  rcases mem_update_append hu with hu | rfl
  · exact h.dirClose u hu
  · exact lookup_dir_isSome.mp (Option.isSome_of_eq_some hfind) h.dirs

theorem NoNull.epochEnd (h : s.NoNull) (hs : s.epochEnd t = some s') : s'.NoNull := by
  obtain ⟨-, rfl⟩ := epochEnd_eq hs
  exact { h with }

theorem NoNull.saveDupFd {oldfd newfd : Int} (h : s.NoNull) (hs : s.saveDupFd oldfd newfd = some s') : s'.NoNull := by
  rw [State.saveDupFd] at hs
  split at hs
  · obtain ⟨thisFile, -, hs⟩ := Option.bind_eq_some_iff.mp hs
    cases hs
    exact h.insertFile ‹_›
  · cases hs
    exact h

theorem NoNull.run (h : s.NoNull) (hs : s.run c = some s') : s'.NoNull := by
  cases c with
  | «open» t fd file =>
    simp only [State.run] at hs
    split at hs <;> cases hs
    rw [saveFd]
    split
    · exact h.insertFile ‹_›
    · exact h
  | dup t oldfd ret =>
    simp only [State.run] at hs
    split at hs
    · exact h.epochEnd hs
    · split at hs
      · exact h.saveDupFd hs
      · cases hs
  | dup2 t oldfd newfd ret =>
    simp only [State.run] at hs
    split at hs
    · exact h.epochEnd hs
    · split at hs
      · exact h.saveDupFd hs
      · cases hs
  | opendir t dir =>
    simp only [State.run] at hs
    split at hs <;> cases hs
    rw [saveDir]
    split
    · exact h.insertDir ‹_›
    · exact h
  | close t fd fp =>
    simp only [State.run] at hs
    split at hs
    · exact h.epochEnd hs
    · obtain ⟨r, hr, rfl⟩ := Option.map_eq_some_iff.mp hs
      exact (h.closeFile hr).noteClose
  | closedir t dir =>
    obtain ⟨r, hr, rfl⟩ := Option.map_eq_some_iff.mp hs
    exact (h.closeDir hr).noteClose
  | threadCreate t u =>
    simp only [State.run] at hs
    split at hs <;> cases hs
    exact h.mono (fun v _ => mem_update_of_subset (List.nil_subset _)) (fun v _ => mem_update_of_subset (List.nil_subset _))
      fun _ hnil => hnil
  | cancel t u =>
    simp only [State.run] at hs
    split at hs
    · obtain ⟨-, rfl⟩ := removeAliveThread_eq hs
      exact { h with }
    · cases hs
  | join t u | deferSync t u =>
    simp only [State.run] at hs
    split at hs <;> cases hs
    exact { h with }
  | munmap t region | finish t =>
    cases hs
    exact { h with }
  | commit t => exact h.epochEnd hs
  | go t => cases hs

/-- The thread that ends the epoch opens nothing. -/
theorem go_numbers (h : s.go = some s') : s'.numbers = s.numbers := by
  cases go_cases h <;> rfl

theorem NoNull.go (h : s.NoNull) (hs : s.go = some s') : s'.NoNull := by
  have hmap := go_mapStep hs
  have hentries (k : Key) (hnil : s.entries k = []) : s'.entries k = [] := by
    cases hmap with
    | kept hsame => rw [hsame, hnil]
    | cleaned key hne htail =>
      by_cases hk : k = key
      · exact absurd (hk ▸ hnil) hne
      · rw [htail, Function.update_of_ne hk, hnil]
    | inserted key hentries hreal hnumbers =>
      rw [go_numbers hs] at hnumbers
      omega
    | noted c hsame => rw [hsame, hnil]
  refine h.mono ?_ ?_ hentries <;> intro v b hb
  · cases go_cases hs with
    | nullFile t fds hst hlist => exact mem_update_of_subset (hlist ▸ List.subset_cons_self _ _) hb
    | file t fd fds file filesMap hst hlist => exact mem_update_of_subset (hlist ▸ List.subset_cons_self _ _) hb
    | reset t i u => exact mem_update_of_subset (List.nil_subset _) hb
    | _ => exact hb
  · cases go_cases hs with
    | nullDir t dirs hst hlist => exact mem_update_of_subset (hlist ▸ List.subset_cons_self _ _) hb
    | dir t dir dirs thisDir dirsMap hst hlist => exact mem_update_of_subset (hlist ▸ List.subset_cons_self _ _) hb
    | reset t i u => exact mem_update_of_subset (List.nil_subset _) hb
    | _ => exact hb

theorem NoNull.exec (h : s.NoNull) (hs : s.exec c = some s') : s'.NoNull := by
  rcases exec_cases hs with ⟨-, hgo⟩ | ⟨-, -, hrun⟩
  · exact h.go hgo
  · exact h.run hrun

theorem NoNull.began (h : s.Began) : s.NoNull :=
  ⟨fun u hu => (by rw [h.fileClose] at hu; cases hu), fun u hu => (by rw [h.dirClose] at hu; cases hu), entries_began h _,
    entries_began h _⟩

theorem reachable_noNull (h : Reachable system s) : s.NoNull :=
  Reachable.invariant (S := system) (P := NoNull) (fun _ h => .began h) (fun _ _ _ h hs => h.exec hs) h

/-- What the calls of other threads leave alone while thread `t` ends the epoch. -/
structure Kept (s s' : State) (t : Nat) : Prop where
  stage : s'.stage = s.stage
  real : s'.realCloses = s.realCloses
  queued : s'.queued t = s.queued t
  fileClose : s'.fileClose t = s.fileClose t
  dirClose : s'.dirClose t = s.dirClose t
  alive : t ∈ s'.alive
  entries : ∀ key, s.entries key <+: s'.entries key

theorem Kept.of_mapStep (hmap : MapStep s s') (hfilesClosed : s'.filesClosed = s.filesClosed)
    (hdirsClosed : s'.dirsClosed = s.dirsClosed) (hstage : s'.stage = s.stage) (hfileClose : s'.fileClose t = s.fileClose t)
    (hdirClose : s'.dirClose t = s.dirClose t) (halive : t ∈ s'.alive) : s.Kept s' t := by
  have hreal : s'.realCloses = s.realCloses := funext fun key => by
    cases key with
    | inl fd => exact congrArg (fun l => (l.map Prod.fst).count fd) hfilesClosed
    | inr dir => exact congrArg (fun l => (l.map Prod.fst).count dir) hdirsClosed
  have hqueued : s'.queued t = s.queued t := funext fun key => by
    cases key with
    | inl fd => exact congrArg (List.count fd) hfileClose
    | inr dir => exact congrArg (List.count dir) hdirClose
  refine ⟨hstage, hreal, hqueued, hfileClose, hdirClose, halive, fun key => ?_⟩
  cases hmap with
  | kept hsame => exact hsame ▸ List.prefix_refl _
  | inserted k hentries =>
    rw [hentries]
    by_cases hk : key = k
    · rw [hk, Function.update_self]
      exact List.prefix_append _ _
    · have hsame : Function.update s.entries k (s.entries k ++ [s.numbers]) key = s.entries key := Function.update_of_ne hk _ _
      exact hsame ▸ List.prefix_refl _
  | noted c hsame => exact hsame ▸ List.prefix_refl _
  | cleaned k hne htail hreal' =>
    have hcount := congrFun (hreal.symm.trans hreal') k
    rw [Function.update_self] at hcount
    omega

theorem noteClose_eq (s : State) (t : Nat) (key : Key) (ret : Int) : ∃ closed, s.noteClose t key ret = { s with closed := closed } := by
  rw [noteClose]
  split
  · exact ⟨_, rfl⟩
  · exact ⟨s.closed, rfl⟩

theorem saveFd_eq (s : State) (fd : Int) (file : Option Nat) :
    ∃ filesMap numbers, s.saveFd fd file = { s with filesMap := filesMap, numbers := numbers } := by
  rw [saveFd]
  split
  · exact ⟨_, _, rfl⟩
  · exact ⟨s.filesMap, s.numbers, rfl⟩

theorem saveDir_eq (s : State) (dir : Nat) :
    ∃ dirsMap numbers, s.saveDir dir = { s with dirsMap := dirsMap, numbers := numbers } := by
  rw [saveDir]
  split
  · exact ⟨_, _, rfl⟩
  · exact ⟨s.dirsMap, s.numbers, rfl⟩

theorem closeFile_eq {fd : Int} {fp : Option Nat} {r : State × Int} (h : s.closeFile u fd fp = some r) :
    r.1 = s ∨ r.1 = s.insertFileClose u fd := by
  rw [closeFile] at h
  split at h
  · cases h
    exact .inl rfl
  · obtain ⟨thisFile, -, h⟩ := Option.bind_eq_some_iff.mp h
    cases h
    exact .inr rfl

theorem closeDir_eq {dir : Nat} {r : State × Int} (h : s.closeDir u dir = some r) : r.1 = s.insertDirClose u dir := by
  obtain ⟨thisDir, -, h⟩ := Option.bind_eq_some_iff.mp h
  cases h
  rfl

theorem closeFile_kept {fd : Int} {fp : Option Nat} {r : State × Int} (hne : u ≠ t) (ht : t ∈ s.alive)
    (h : s.closeFile u fd fp = some r) : s.Kept (r.1.noteClose u (.inl fd) r.2) t := by
  have hmap := closeFile_mapStep h
  obtain ⟨closed, heq⟩ := noteClose_eq r.1 u (.inl fd) r.2
  rw [heq] at hmap ⊢
  rcases closeFile_eq h with hr | hr <;> rw [hr] at hmap ⊢
  · exact .of_mapStep hmap rfl rfl rfl rfl rfl ht
  · exact .of_mapStep hmap rfl rfl rfl (Function.update_of_ne hne.symm _ _) rfl ht

theorem closeDir_kept {dir : Nat} {r : State × Int} (hne : u ≠ t) (ht : t ∈ s.alive) (h : s.closeDir u dir = some r) :
    s.Kept (r.1.noteClose u (.inr dir) r.2) t := by
  have hmap := closeDir_mapStep h
  obtain ⟨closed, heq⟩ := noteClose_eq r.1 u (.inr dir) r.2
  rw [heq, closeDir_eq h] at hmap ⊢
  exact .of_mapStep hmap rfl rfl rfl rfl (Function.update_of_ne hne.symm _ _) ht

theorem saveDupFd_kept {oldfd newfd : Int} (ht : t ∈ s.alive) (h : s.saveDupFd oldfd newfd = some s') : s.Kept s' t := by
  have hmap := saveDupFd_mapStep h
  rw [saveDupFd] at h
  split at h
  · obtain ⟨thisFile, -, h⟩ := Option.bind_eq_some_iff.mp h
    cases h
    exact .of_mapStep hmap rfl rfl rfl rfl rfl ht
  · cases h
    exact .of_mapStep hmap rfl rfl rfl rfl rfl ht

theorem run_kept (hcommitter : s.stage.committer = some t) (hne : c.thread ≠ t) (ht : t ∈ s.alive) (h : s.run c = some s') :
    s.Kept s' t := by
  have hmap := run_mapStep h
  -- the epoch is being ended already
  have hend (v : Nat) : s.epochEnd v = none := if_neg fun hnone => by rw [hnone] at hcommitter; cases hcommitter
  cases c with
  | «open» v fd file =>
    simp only [State.run] at h
    split at h <;> cases h
    obtain ⟨filesMap, numbers, heq⟩ := saveFd_eq s fd file
    rw [heq] at hmap ⊢
    exact .of_mapStep hmap rfl rfl rfl rfl rfl ht
  | dup v oldfd ret =>
    simp only [State.run, hend] at h
    split at h
    · cases h
    · split at h
      · exact saveDupFd_kept ht h
      · cases h
  | dup2 v oldfd newfd ret =>
    simp only [State.run, hend] at h
    split at h
    · cases h
    · split at h
      · exact saveDupFd_kept ht h
      · cases h
  | opendir v dir =>
    simp only [State.run] at h
    split at h <;> cases h
    obtain ⟨dirsMap, numbers, heq⟩ := saveDir_eq s dir
    rw [heq] at hmap ⊢
    exact .of_mapStep hmap rfl rfl rfl rfl rfl ht
  | close v fd fp =>
    simp only [State.run, hend] at h
    split at h
    · cases h
    · obtain ⟨r, hr, rfl⟩ := Option.map_eq_some_iff.mp h
      exact closeFile_kept hne ht hr
  | closedir v dir =>
    obtain ⟨r, hr, rfl⟩ := Option.map_eq_some_iff.mp h
    exact closeDir_kept hne ht hr
  | munmap v region =>
    cases h
    exact .of_mapStep hmap rfl rfl rfl rfl rfl ht
  | threadCreate v u =>
    simp only [State.run] at h
    split at h <;> cases h
    rename_i hu
    have hut : t ≠ u := fun heq => hu (heq ▸ ht)
    exact .of_mapStep hmap rfl rfl rfl (Function.update_of_ne hut _ _) (Function.update_of_ne hut _ _)
      (List.mem_append_left _ ht)
  | finish v =>
    cases h
    exact .of_mapStep hmap rfl rfl rfl rfl rfl ht
  | join v u | deferSync v u =>
    simp only [State.run] at h
    split at h <;> cases h
    exact .of_mapStep hmap rfl rfl rfl rfl rfl ht
  | cancel v u =>
    simp only [State.run] at h
    split at h
    · rename_i hnone
      rw [hnone] at hcommitter
      cases hcommitter
    · cases h
  | commit v => cases (hend v).symm.trans h
  | go v => cases h

/-- A state in which the epoch is still being ended that was being ended in `s`. -/
def InCommit : State → State → Prop := Relation.ReflTransGen fun a b => a.stage ≠ .none ∧ ∃ c, a.exec c = some b

/-- What has been drained from the lists of thread `t` since the state `s` in which it began to. -/
structure Drained (s x : State) (t : Nat) : Prop where
  committer : x.stage.committer = some t
  alive : t ∈ x.alive
  noNull : x.NoNull
  closes : ∀ key, x.realCloses key + x.queued t key = s.realCloses key + s.queued t key
  files : x.stage ≠ .files t → x.fileClose t = []
  dirs : x.stage ≠ .files t → x.stage ≠ .dirs t → x.dirClose t = []

theorem Drained.run (h : s.Drained x t) (hne : c.thread ≠ t) (hs : x.run c = some s') : s.Drained s' t := by
  have hkept := run_kept h.committer hne h.alive hs
  refine ⟨?_, hkept.alive, h.noNull.run hs, fun key => ?_, ?_, ?_⟩
  · rw [hkept.stage]
    exact h.committer
  · rw [hkept.real, hkept.queued]
    exact h.closes key
  · rw [hkept.stage, hkept.fileClose]
    exact h.files
  · rw [hkept.stage, hkept.dirClose]
    exact h.dirs

theorem queued_file (fd : Int) : s.queued t (.inl fd) = (s.fileClose t).count fd := rfl

theorem queued_dir (dir : Nat) : s.queued t (.inr dir) = (s.dirClose t).count dir := rfl

/-- The first descriptor of the list of thread `t` is closed. -/
theorem closes_cleanFile {fd : Int} {fds : List Int} {info : FileInfo} {filesMap : List (Int × FileInfo)} (hlist : s.fileClose t = fd :: fds)
    (key : Key) : State.realCloses { s with
        fileClose := Function.update s.fileClose t fds
        filesMap := filesMap
        filesClosed := s.filesClosed ++ [(fd, info)] } key + State.queued { s with
        fileClose := Function.update s.fileClose t fds
        filesMap := filesMap
        filesClosed := s.filesClosed ++ [(fd, info)] } t key = s.realCloses key + s.queued t key := by
  cases key with
  | inl fd' =>
    simp only [realCloses, queued, Function.update_self, hlist, List.map_append, List.map_singleton, List.count_append, List.count_cons,
      List.count_nil]
    omega
  | inr dir => rfl

theorem closes_cleanDir {dir : Nat} {dirs : List Nat} {info : DirInfo} {dirsMap : List (Nat × DirInfo)} (hlist : s.dirClose t = dir :: dirs)
    (key : Key) : State.realCloses { s with
        dirClose := Function.update s.dirClose t dirs
        dirsMap := dirsMap
        dirsClosed := s.dirsClosed ++ [(dir, info)] } key + State.queued { s with
        dirClose := Function.update s.dirClose t dirs
        dirsMap := dirsMap
        dirsClosed := s.dirsClosed ++ [(dir, info)] } t key = s.realCloses key + s.queued t key := by
  cases key with
  | inl fd => rfl
  | inr dir' =>
    simp only [realCloses, queued, Function.update_self, hlist, List.map_append, List.map_singleton, List.count_append, List.count_cons,
      List.count_nil]
    omega

theorem Drained.go (h : s.Drained x t) (hs : x.go = some s') (hstage : s'.stage ≠ .none) : s.Drained s' t := by
  have hnull := h.noNull.go hs
  have hcommitter := h.committer
  cases go_cases hs with
  | nullFile v fds hst hlist =>
    exact absurd (hlist ▸ List.mem_cons_self) (h.noNull.fileClose v)
  | nullDir v dirs hst hlist =>
    exact absurd (hlist ▸ List.mem_cons_self) (h.noNull.dirClose v)
  | file v fd fds file filesMap hst hlist hfd hentry =>
    obtain rfl : v = t := Option.some.inj ((congrArg Stage.committer hst).symm.trans hcommitter)
    obtain ⟨info, -, heq⟩ := cleanEntry_eq_some.mp hentry
    cases heq
    exact ⟨hcommitter, h.alive, hnull, fun key => (closes_cleanFile hlist key).trans (h.closes key), fun hnot => absurd hst hnot,
      fun hnot => absurd hst hnot⟩
  | dir v dir dirs thisDir dirsMap hst hlist hdir hentry =>
    obtain rfl : v = t := Option.some.inj ((congrArg Stage.committer hst).symm.trans hcommitter)
    obtain ⟨info, -, heq⟩ := cleanEntry_eq_some.mp hentry
    cases heq
    exact ⟨hcommitter, h.alive, hnull, fun key => (closes_cleanDir hlist key).trans (h.closes key), h.files,
      fun _ hnot => absurd hst hnot⟩
  | filesDone v hst hlist =>
    obtain rfl : v = t := Option.some.inj ((congrArg Stage.committer hst).symm.trans hcommitter)
    exact ⟨rfl, h.alive, hnull, h.closes, fun _ => hlist, fun _ hnot => absurd rfl hnot⟩
  | dirsDone v hst hlist =>
    obtain rfl : v = t := Option.some.inj ((congrArg Stage.committer hst).symm.trans hcommitter)
    exact ⟨rfl, h.alive, hnull, h.closes, fun _ => h.files (by rw [hst]; nofun), fun _ _ => hlist⟩
  | skip v i u hst | visit v i u hst | drained v i u hst =>
    obtain rfl : v = t := Option.some.inj ((congrArg Stage.committer hst).symm.trans hcommitter)
    exact ⟨rfl, h.alive, hnull, h.closes, fun _ => h.files (by rw [hst]; nofun),
      fun _ _ => h.dirs (by rw [hst]; nofun) (by rw [hst]; nofun)⟩
  | unmap v i u region regions hst =>
    exact ⟨hcommitter, h.alive, hnull, h.closes, h.files, h.dirs⟩
  | done => exact absurd rfl hstage
  | reset v i u hst =>
    obtain rfl : v = t := Option.some.inj ((congrArg Stage.committer hst).symm.trans hcommitter)
    have hfiles : x.fileClose v = [] := h.files (by rw [hst]; nofun)
    have hdirs : x.dirClose v = [] := h.dirs (by rw [hst]; nofun) (by rw [hst]; nofun)
    have hfiles' : Function.update x.fileClose u [] v = [] := by
      by_cases hv : v = u
      · rw [hv, Function.update_self]
      · rw [Function.update_of_ne hv, hfiles]
    have hdirs' : Function.update x.dirClose u [] v = [] := by
      by_cases hv : v = u
      · rw [hv, Function.update_self]
      · rw [Function.update_of_ne hv, hdirs]
    refine ⟨rfl, h.alive, hnull, fun key => (congrArg (x.realCloses key + ·) ?_).trans (h.closes key), fun _ => hfiles', fun _ _ => hdirs'⟩
    cases key with
    | inl fd => exact congrArg (List.count fd) (hfiles'.trans hfiles.symm)
    | inr dir => exact congrArg (List.count dir) (hdirs'.trans hdirs.symm)

theorem Drained.step (h : s.Drained x t) (hs : x.exec c = some s') (hstage : s'.stage ≠ .none) : s.Drained s' t := by
  rcases exec_cases hs with ⟨-, hgo⟩ | ⟨hne, -, hrun⟩
  · exact h.go hgo hstage
  · exact h.run (fun heq => hne (heq ▸ h.committer)) hrun

theorem InCommit.drained (hstage : s.stage = .files t) (ht : s.running t = true) (hnull : s.NoNull) (h : InCommit s x)
    (hx : x.stage ≠ .none) : s.Drained x t := by
  induction h with
  | refl =>
    exact ⟨congrArg Stage.committer hstage, (running_iff.mp ht).1, hnull, fun _ => rfl, fun hnot => absurd hstage hnot,
      fun hnot => absurd hstage hnot⟩
  | tail _ hs ih =>
    obtain ⟨hb, c, hs⟩ := hs
    exact (ih hb).step hs hx

/-- A step of the thread takes as many entries as it takes from its lists. -/
theorem go_balance (h : s.Drained x t) (hs : x.go = some s') (hstage : s'.stage ≠ .none) (key : Key) :
    s'.queued t key + (x.entries key).length = x.queued t key + (s'.entries key).length := by
  have hsum : s'.realCloses key + s'.queued t key = x.realCloses key + x.queued t key :=
    ((h.go hs hstage).closes key).trans (h.closes key).symm
  cases go_mapStep hs with
  | kept hentries hreal | noted _ hentries hreal =>
    rw [hreal] at hsum
    rw [hentries]
    omega
  | inserted k hentries hreal hnumbers =>
    rw [go_numbers hs] at hnumbers
    omega
  | cleaned k hne hentries hreal =>
    rw [hreal] at hsum
    rw [hentries]
    by_cases hk : key = k
    · subst hk
      rw [Function.update_self] at hsum ⊢
      have hpos := List.length_pos_of_ne_nil hne
      rw [List.length_tail]
      omega
    · rw [Function.update_of_ne hk] at hsum ⊢
      omega

/-- Nothing is on the lists of the thread more often than it has entries. -/
def Enough (s : State) (t : Nat) : Prop := ∀ key, s.queued t key ≤ (s.entries key).length

theorem InCommit.enough (hstage : s.stage = .files t) (ht : s.running t = true) (hnull : s.NoNull) (henough : s.Enough t)
    (h : InCommit s x) (hx : x.stage ≠ .none) : x.Enough t := by
  induction h with
  | refl => exact henough
  | @tail b y hb hs ih =>
    obtain ⟨hbstage, c, hs⟩ := hs
    have hdrained : s.Drained b t := InCommit.drained hstage ht hnull hb hbstage
    have hle := ih hbstage
    intro key
    have hlekey := hle key
    rcases exec_cases hs with ⟨-, hgo⟩ | ⟨hne, -, hrun⟩
    · have hbalance := go_balance hdrained hgo hx key
      omega
    · have hkept := run_kept hdrained.committer (fun heq => hne (heq ▸ hdrained.committer)) hdrained.alive hrun
      rw [hkept.queued]
      exact Nat.le_trans hlekey (hkept.entries key).length_le

theorem cleanFile_isSome {fd : Int} {fds : List Int} (h : s.entries (.inl fd) ≠ []) : (s.cleanFile t fd fds).isSome := by
  obtain ⟨info, hinfo⟩ := Option.isSome_iff_exists.mp (lookup_file_isSome.mpr h)
  rw [cleanFile]
  split
  · rfl
  · dsimp only
    rw [cleanEntry, hinfo]
    rfl

theorem cleanDir_isSome {dir : Nat} {dirs : List Nat} (h : s.entries (.inr dir) ≠ []) : (s.cleanDir t dir dirs).isSome := by
  obtain ⟨info, hinfo⟩ := Option.isSome_iff_exists.mp (lookup_dir_isSome.mpr h)
  rw [cleanDir]
  split
  · rfl
  · dsimp only
    rw [cleanEntry, hinfo]
    rfl

/-- With enough entries, `cleanClosedFiles` goes on. -/
theorem Enough.go_isSome (h : s.Enough t) (hstage : s.stage = .files t ∨ s.stage = .dirs t) : s.go.isSome := by
  have hne {key : Key} (hqueued : 0 < s.queued t key) : s.entries key ≠ [] :=
    List.ne_nil_of_length_pos (Nat.lt_of_lt_of_le hqueued (h key))
  rcases hstage with hst | hst
  · rw [State.go, hst]
    dsimp only
    split
    · rename_i fd fds hlist
      exact cleanFile_isSome (hne (by rw [queued_file, hlist, List.count_cons_self]; exact Nat.succ_pos _))
    · rfl
  · rw [State.go, hst]
    dsimp only
    split
    · rename_i dir dirs hlist
      exact cleanDir_isSome (hne (by rw [queued_dir, hlist, List.count_cons_self]; exact Nat.succ_pos _))
    · rfl

/-- Where nothing stops the thread, it comes to the end of its lists by itself. -/
theorem exists_drained (hgo : ∀ x, InCommit s x → x.stage = .files t ∨ x.stage = .dirs t → x.go.isSome) (n : Nat)
    (hx : InCommit s x) (hdrained : s.Drained x t) (hstage : x.stage = .files t ∨ x.stage = .dirs t)
    (hn : (x.fileClose t).length + (x.dirClose t).length + (if x.stage = .files t then 1 else 0) ≤ n)
    (hbalance : ∀ key, x.queued t key + (s.entries key).length = s.queued t key + (x.entries key).length) :
    s.Enough t := by
  induction n generalizing x with
  | zero =>
    have hfiles : x.fileClose t = [] := List.eq_nil_of_length_eq_zero (by omega)
    have hdirs : x.dirClose t = [] := List.eq_nil_of_length_eq_zero (by omega)
    intro key
    have hkey := hbalance key
    have hqueued : x.queued t key = 0 := by
      cases key with
      | inl fd => rw [queued_file, hfiles, List.count_nil]
      | inr dir => rw [queued_dir, hdirs, List.count_nil]
    omega
  | succ n ih =>
    obtain ⟨y, hy⟩ := Option.isSome_iff_exists.mp (hgo x hx hstage)
    have hxstage : x.stage ≠ .none := fun hnone => by rcases hstage with hst | hst <;> rw [hnone] at hst <;> cases hst
    have hstep (hystage : y.stage = .files t ∨ y.stage = .dirs t)
        (hless : (y.fileClose t).length + (y.dirClose t).length + (if y.stage = .files t then 1 else 0) ≤ n) : s.Enough t := by
      have hynone : y.stage ≠ .none := fun hnone => by rcases hystage with hst | hst <;> rw [hnone] at hst <;> cases hst
      have hexec : x.exec (.go t) = some y := (if_pos hdrained.committer).trans ((if_pos rfl).trans hy)
      refine ih (hx.tail ⟨hxstage, .go t, hexec⟩) (hdrained.go hy hynone) hystage hless fun key => ?_
      have hgobalance := go_balance hdrained hy hynone key
      have hkey := hbalance key
      omega
    have hthread {v : Nat} (hv : x.stage.committer = some v) : v = t := Option.some.inj (hv.symm.trans hdrained.committer)
    have hstage' := hstage
    cases go_cases hy with
    | nullFile v fds hst hlist => exact absurd (hlist ▸ List.mem_cons_self) (hdrained.noNull.fileClose v)
    | nullDir v dirs hst hlist => exact absurd (hlist ▸ List.mem_cons_self) (hdrained.noNull.dirClose v)
    | file v fd fds file filesMap hst hlist =>
      obtain rfl : v = t := hthread (congrArg Stage.committer hst)
      refine hstep (.inl hst) ?_
      rw [hlist, if_pos hst, List.length_cons] at hn
      simp only [Function.update_self, if_pos hst]
      omega
    | filesDone v hst hlist =>
      obtain rfl : v = t := hthread (congrArg Stage.committer hst)
      refine hstep (.inr rfl) ?_
      rw [if_pos hst] at hn
      have hnot : ¬ (Stage.dirs v = .files v) := nofun
      simp only [if_neg hnot]
      omega
    | dir v dir dirs thisDir dirsMap hst hlist =>
      obtain rfl : v = t := hthread (congrArg Stage.committer hst)
      refine hstep (.inr hst) ?_
      have hnot : ¬ (x.stage = .files v) := by rw [hst]; nofun
      rw [hlist, if_neg hnot, List.length_cons] at hn
      simp only [Function.update_self, if_neg hnot]
      omega
    | dirsDone v hst hlist =>
      obtain rfl : v = t := hthread (congrArg Stage.committer hst)
      have hfiles : x.fileClose v = [] := hdrained.files (by rw [hst]; nofun)
      exact ih hx hdrained hstage (by rw [hfiles, hlist, if_neg (by rw [hst]; nofun)]; exact Nat.zero_le _) hbalance
    | skip _ _ _ hst | visit _ _ _ hst | done _ _ _ hst | unmap _ _ _ _ _ hst | drained _ _ _ hst | reset _ _ _ hst =>
      rcases hstage' with h | h <;> rw [hst] at h <;> cases h

/-- The lists of the thread `u` are about to be started anew, or it is about to be passed over. -/
def EndsFor (s : State) (u : Nat) : Prop :=
  (∃ t i, s.stage = .reset t i u) ∨ ∃ t i, s.stage = .next t i ∧ s.alive[i]? = some u ∧ s.skipped t u

/-- One thread, and nothing opened or put off. -/
def start : State where
  alive := [0]
  finished := fun _ => false
  hasJoined := fun _ => false
  deferSyncs := []
  stage := .none
  fileClose := fun _ => []
  dirClose := fun _ => []
  munmap := fun _ => []
  filesMap := []
  dirsMap := []
  numbers := 0
  filesClosed := []
  dirsClosed := []
  unmapped := []
  closed := []
  passed := []
  due := []

theorem start_began : start.Began := by
  constructor <;> intros <;> rfl

theorem InCommit.of_foldlM {l : List Call} (h : l.foldlM (fun s c => if s.stage = .none then none else s.exec c) s = some x) :
    InCommit s x := by
  induction l generalizing s with
  | nil =>
    cases h
    exact .refl
  | cons c l ih =>
    rw [List.foldlM_cons] at h
    obtain ⟨y, hy, h⟩ := Option.bind_eq_some_iff.mp h
    split at hy
    · cases hy
    · exact .head ⟨‹_›, c, hy⟩ (ih h)

/-- Thread 0 opens a file and a directory and closes them, with thread 1 beside it, and begins to end the epoch. -/
def closesOwn : List Call :=
  [.open 0 4 none, .opendir 0 9, .threadCreate 0 1, .close 0 4 none, .closedir 0 9, .commit 0]

/-- While thread 0 goes on to its own lists, thread 1 opens a file and closes the file that thread 0 has closed. -/
def whileCleaning : List Call := [.open 1 5 none, .close 1 4 none, .go 0, .go 0, .go 0, .go 0, .go 0, .go 0]

/-- Thread 1 closes the file that thread 0 has opened, and thread 0 ends the epoch. -/
def closesOther : List Call := [.open 0 4 none, .threadCreate 0 1, .close 1 4 none, .commit 0]

/-- Where the lists of a thread are started anew, where it is passed over, and where it is taken out of the list of threads, its `munmap`
    list is empty. -/
def listsDrained (s : State) : Call → Prop
  | .go _ =>
    match s.stage with
    | .next t i =>
      match s.alive[i]? with
      | some u => s.skipped t u → s.munmap u = []
      | none => ∀ u ∈ s.deferSyncs, s.munmap u = []
    | .reset _ _ u => s.munmap u = []
    | .none | .files _ | .dirs _ | .drain _ _ _ => True
  | .cancel _ u => s.munmap u = []
  | _ => True

/-- The regions that each thread has passed to `munmap` in this epoch are on its list, but for those that the drain of its list has come
    to; apart from these, the regions of the epochs that have ended have been unmapped, and no others. -/
structure Held (s : State) (early : List Region) : Prop where
  unmapped : s.unmapped.Perm (s.due ++ early)
  passed : ∀ u, (s.passedBy u).Perm ((if s.stage.unmaps = some u then early else []) ++ s.munmap u)
  early : s.stage.unmaps = none → early = []
  gone : ∀ u, u ∉ s.alive → s.munmap u = []

variable {early : List Region}

/-- Nothing is different about the regions. -/
theorem Held.of_eq (h : s.Held early) (halive : s.alive ⊆ s'.alive) (hstage : s'.stage.unmaps = s.stage.unmaps)
    (hmunmap : s'.munmap = s.munmap) (hunmapped : s'.unmapped = s.unmapped) (hpassed : s'.passed = s.passed) (hdue : s'.due = s.due) :
    s'.Held early := by
  refine ⟨?_, fun u => ?_, ?_, fun u hu => ?_⟩
  · rw [hunmapped, hdue]
    exact h.unmapped
  · rw [hstage, hmunmap, passedBy, hpassed]
    exact h.passed u
  · rw [hstage]
    exact h.early
  · rw [hmunmap]
    exact h.gone u fun hmem => hu (halive hmem)

/-- Outside of a drain, the regions of a thread are those on its list. -/
theorem Held.passed_of_ne (h : s.Held early) (hu : s.stage.unmaps ≠ some u) : (s.passedBy u).Perm (s.munmap u) := by
  have hpassed := h.passed u
  rwa [if_neg hu, List.nil_append] at hpassed

theorem passedBy_append {region : Region} {passed : List (Nat × Region)} :
    ((passed ++ [(t, region)]).filter (·.1 = u)).map (·.2) =
      (passed.filter (·.1 = u)).map (·.2) ++ if t = u then [region] else [] := by
  rw [List.filter_append, List.map_append]
  by_cases hu : t = u <;> simp [hu]

theorem Held.recordMunmapOps {region : Region} (h : s.Held early) (ht : t ∈ s.alive) : (s.recordMunmapOps t region).Held early := by
  refine ⟨h.unmapped, fun u => ?_, h.early, fun u hu => ?_⟩
  · rw [State.recordMunmapOps, passedBy, passedBy_append]
    dsimp only
    by_cases hu : t = u
    · subst hu
      rw [if_pos rfl, Function.update_self, ← List.append_assoc]
      exact (h.passed t).append_right _
    · rw [if_neg hu, List.append_nil, Function.update_of_ne (Ne.symm hu)]
      exact h.passed u
  · have hut : u ≠ t := fun heq => hu (heq ▸ ht)
    exact (Function.update_of_ne hut _ _).trans (h.gone u hu)

/-- A new thread has an empty list, as the slot had. -/
theorem Held.threadInitialize (h : s.Held early) (hu : u ∉ s.alive) : (s.threadInitialize u).Held early := by
  have hmunmap : (s.threadInitialize u).munmap = s.munmap := by
    change Function.update s.munmap u [] = s.munmap
    rw [← h.gone u hu, Function.update_eq_self]
  exact h.of_eq (List.subset_append_left _ _) rfl hmunmap rfl rfl rfl

/-- A thread with an empty list is taken out of the list of threads. -/
theorem Held.removeAliveThread (h : s.Held early) (hempty : s.munmap u = []) (hs : s.removeAliveThread u = some s') :
    s'.Held early := by
  obtain ⟨-, rfl⟩ := removeAliveThread_eq hs
  refine { h with gone := fun v hv => ?_ }
  by_cases hvu : v = u
  · rw [hvu, hempty]
  · exact h.gone v fun hmem => hv ((List.mem_erase_of_ne hvu).mpr hmem)

theorem Held.epochEnd (h : s.Held early) (hs : s.epochEnd t = some s') : s'.Held early := by
  obtain ⟨hnone, rfl⟩ := epochEnd_eq hs
  exact h.of_eq (List.Subset.refl _) (by rw [hnone]; rfl) rfl rfl rfl rfl

theorem Held.noteClose {ret : Int} (h : s.Held early) : (s.noteClose t key ret).Held early := by
  obtain ⟨closed, heq⟩ := noteClose_eq s t key ret
  rw [heq]
  exact h.of_eq (List.Subset.refl _) rfl rfl rfl rfl rfl

theorem Held.saveDupFd {oldfd newfd : Int} (h : s.Held early) (hs : s.saveDupFd oldfd newfd = some s') : s'.Held early := by
  rw [State.saveDupFd] at hs
  split at hs
  · obtain ⟨thisFile, -, hs⟩ := Option.bind_eq_some_iff.mp hs
    cases hs
    exact h.of_eq (List.Subset.refl _) rfl rfl rfl rfl rfl
  · cases hs
    exact h

theorem Held.run (h : s.Held early) (ht : c.thread ∈ s.alive) (hg : s.listsDrained c) (hs : s.run c = some s') : s'.Held early := by
  cases c with
  | «open» t fd file =>
    simp only [State.run] at hs
    split at hs <;> cases hs
    obtain ⟨filesMap, numbers, heq⟩ := saveFd_eq s fd file
    rw [heq]
    exact h.of_eq (List.Subset.refl _) rfl rfl rfl rfl rfl
  | dup t oldfd ret =>
    simp only [State.run] at hs
    split at hs
    · exact h.epochEnd hs
    · split at hs
      · exact h.saveDupFd hs
      · cases hs
  | dup2 t oldfd newfd ret =>
    simp only [State.run] at hs
    split at hs
    · exact h.epochEnd hs
    · split at hs
      · exact h.saveDupFd hs
      · cases hs
  | opendir t dir =>
    simp only [State.run] at hs
    split at hs <;> cases hs
    obtain ⟨dirsMap, numbers, heq⟩ := saveDir_eq s dir
    rw [heq]
    exact h.of_eq (List.Subset.refl _) rfl rfl rfl rfl rfl
  | close t fd fp =>
    simp only [State.run] at hs
    split at hs
    · exact h.epochEnd hs
    · obtain ⟨r, hr, rfl⟩ := Option.map_eq_some_iff.mp hs
      refine Held.noteClose ?_
      rcases closeFile_eq hr with heq | heq <;> rw [heq]
      · exact h
      · exact h.of_eq (List.Subset.refl _) rfl rfl rfl rfl rfl
  | closedir t dir =>
    obtain ⟨r, hr, rfl⟩ := Option.map_eq_some_iff.mp hs
    refine Held.noteClose ?_
    rw [closeDir_eq hr]
    exact h.of_eq (List.Subset.refl _) rfl rfl rfl rfl rfl
  | munmap t region =>
    cases hs
    exact h.recordMunmapOps ht
  | threadCreate t u =>
    simp only [State.run] at hs
    split at hs <;> cases hs
    exact h.threadInitialize ‹_›
  | finish t =>
    cases hs
    exact h.of_eq (List.Subset.refl _) rfl rfl rfl rfl rfl
  | join t u | deferSync t u =>
    simp only [State.run] at hs
    split at hs <;> cases hs
    exact h.of_eq (List.Subset.refl _) rfl rfl rfl rfl rfl
  | cancel t u =>
    simp only [State.run] at hs
    split at hs
    · exact h.removeAliveThread hg hs
    · cases hs
  | commit t => exact h.epochEnd hs
  | go t => cases hs

/-- The epoch ends for a thread whose list is empty: what it has passed to `munmap` has been unmapped. -/
theorem Held.endFor {v j : Nat} (h : s.Held early) (hempty : s.munmap u = [])
    (hearly : s.stage.unmaps = some u ∨ early = []) : Held { s.endFor u with stage := .next v j } [] := by
  have hpassed : (s.passedBy u).Perm early := by
    have hpassed := h.passed u
    rw [hempty, List.append_nil] at hpassed
    rcases hearly with hu | rfl
    · rwa [if_pos hu] at hpassed
    · rwa [ite_self] at hpassed
  refine ⟨?_, fun w => ?_, fun _ => rfl, h.gone⟩
  · rw [List.append_nil]
    exact h.unmapped.trans (hpassed.symm.append_left _)
  · change (((s.passed.filter (·.1 ≠ u)).filter (·.1 = w)).map (·.2)).Perm (_ ++ s.munmap w)
    rw [ite_self, List.nil_append]
    by_cases hv : w = u
    · have hnil : (s.passed.filter (·.1 ≠ u)).filter (·.1 = w) = [] := by
        refine List.filter_eq_nil_iff.mpr fun e he => ?_
        have hne := (List.mem_filter.mp he).2
        simp only [decide_eq_true_eq] at hne ⊢
        exact hv ▸ hne
      rw [hnil, hv, hempty]
      exact .refl _
    · have hsame : (s.passed.filter (·.1 ≠ u)).filter (·.1 = w) = s.passed.filter (·.1 = w) := by
        rw [List.filter_filter]
        refine List.filter_congr fun e _ => ?_
        by_cases he : e.1 = w <;> simp [he, hv]
      rw [hsame]
      have hpassed' := h.passed w
      rcases hearly with hu | rfl
      · rwa [if_neg (fun heq => hv (Option.some.inj (heq.symm.trans hu))), List.nil_append] at hpassed'
      · rwa [ite_self, List.nil_append] at hpassed'

/-- The end of the loop: no other thread has passed anything. -/
theorem Held.endForOthers {alive : List Nat} (h : s.Held []) (hstage : s.stage.unmaps = none)
    (hgone : ∀ u ∈ s.alive, u ∉ alive → s.munmap u = []) :
    Held { s.endForOthers with stage := .none, deferSyncs := [], alive := alive } [] := by
  have hnone (u : Nat) : s.stage.unmaps ≠ some u := by rw [hstage]; nofun
  have hothers : ∀ e ∈ s.passed, e.1 ∈ s.alive := by
    intro e he
    by_contra hnot
    have hnil := h.passed_of_ne (hnone e.1)
    rw [h.gone e.1 hnot, List.perm_nil, passedBy, List.map_eq_nil_iff, List.filter_eq_nil_iff] at hnil
    exact hnil e he (decide_eq_true rfl)
  have hkept : s.passed.filter (·.1 ∈ s.alive) = s.passed := List.filter_eq_self.mpr fun e he => decide_eq_true (hothers e he)
  have hleft : s.passed.filter (·.1 ∉ s.alive) = [] :=
    List.filter_eq_nil_iff.mpr fun e he => by simp [hothers e he]
  refine ⟨?_, fun u => ?_, fun _ => rfl, fun u hu => ?_⟩
  · change s.unmapped.Perm (s.due ++ (s.passed.filter (·.1 ∉ s.alive)).map (·.2) ++ [])
    rw [hleft, List.map_nil, List.append_nil]
    exact h.unmapped
  · change (((s.passed.filter (·.1 ∈ s.alive)).filter (·.1 = u)).map (·.2)).Perm (_ ++ s.munmap u)
    rw [hkept, ite_self, List.nil_append]
    exact h.passed_of_ne (hnone u)
  · by_cases hmem : u ∈ s.alive
    · exact hgone u hmem hu
    · exact h.gone u hmem

theorem Held.go (h : s.Held early) (hg : s.listsDrained (.go t)) (hs : s.go = some s') : ∃ early', s'.Held early' := by
  cases go_cases hs with
  | nullFile | file | nullDir | dir => exact ⟨early, h.of_eq (List.Subset.refl _) rfl rfl rfl rfl rfl⟩
  | filesDone v hst | dirsDone v hst => exact ⟨early, h.of_eq (List.Subset.refl _) (by rw [hst]; rfl) rfl rfl rfl rfl⟩
  | skip v i u hst hu hskip =>
    rw [listsDrained, hst] at hg
    dsimp only at hg
    rw [hu] at hg
    exact ⟨[], h.endFor (hg hskip) (.inr (h.early (by rw [hst]; rfl)))⟩
  | visit v i u hst =>
    obtain rfl : early = [] := h.early (by rw [hst]; rfl)
    refine ⟨[], h.unmapped, fun w => ?_, fun _ => rfl, h.gone⟩
    rw [ite_self]
    exact h.passed_of_ne (by rw [hst]; nofun)
  | done v i alive hst hnone hsub hgone =>
    obtain rfl : early = [] := h.early (by rw [hst]; rfl)
    rw [listsDrained, hst] at hg
    dsimp only at hg
    rw [hnone] at hg
    exact ⟨[], h.endForOthers (by rw [hst]; rfl) fun u hu hnot => hg u (hgone u hu hnot)⟩
  | unmap v i u region regions hst hlist =>
    have hunmaps : s.stage.unmaps = some u := by rw [hst]; rfl
    refine ⟨early ++ [region], ?_, fun w => ?_, fun hnone => (by cases hunmaps.symm.trans hnone), fun w hw => ?_⟩
    · rw [← List.append_assoc]
      exact h.unmapped.append_right _
    · have hpassed := h.passed w
      by_cases hw : w = u
      · subst hw
        rw [if_pos hunmaps, hlist] at hpassed
        change (s.passedBy w).Perm ((if s.stage.unmaps = some w then early ++ [region] else []) ++ Function.update s.munmap w regions w)
        rw [if_pos hunmaps, Function.update_self, List.append_assoc]
        exact hpassed
      · have hne : s.stage.unmaps ≠ some w := fun heq => hw (Option.some.inj (heq.symm.trans hunmaps))
        rw [if_neg hne] at hpassed
        change (s.passedBy w).Perm ((if s.stage.unmaps = some w then early ++ [region] else []) ++ Function.update s.munmap u regions w)
        rw [if_neg hne, Function.update_of_ne hw]
        exact hpassed
    · have hwu : w ≠ u := by
        rintro rfl
        rw [h.gone w hw] at hlist
        cases hlist
      exact (Function.update_of_ne hwu _ _).trans (h.gone w hw)
  | drained v i u hst => exact ⟨early, h.of_eq (List.Subset.refl _) (by rw [hst]; rfl) rfl rfl rfl rfl⟩
  | reset v i u hst =>
    rw [listsDrained, hst] at hg
    have hempty : s.munmap u = [] := hg
    have hheld := h.endFor (v := v) (j := i + 1) hempty (.inl (by rw [hst]; rfl))
    refine ⟨[], hheld.of_eq (List.Subset.refl _) rfl ?_ rfl rfl rfl⟩
    change Function.update s.munmap u [] = s.munmap
    rw [← hempty, Function.update_eq_self]

theorem Held.began (h : s.Began) : s.Held [] := by
  refine ⟨?_, fun u => ?_, fun _ => rfl, fun u _ => h.munmap u⟩
  · rw [h.unmapped, h.due]
    exact .refl _
  · rw [passedBy, h.passed, h.munmap, ite_self]
    exact .refl _

theorem Held.exec (h : s.Held early) (hg : s.listsDrained c) (hs : s.exec c = some s') : ∃ early', s'.Held early' := by
  rcases exec_cases hs with ⟨hcommitter, hgo⟩ | ⟨-, hrunning, hrun⟩
  · have hcall : c = .go c.thread := by
      rw [State.exec, if_pos hcommitter] at hs
      split at hs
      · assumption
      · cases hs
    exact h.go (hcall ▸ hg) hgo
  · exact ⟨early, h.run (running_iff.mp hrunning).1 hg hrun⟩

/-- In every run in which no list with regions on it is started anew, passed over or given up: each region of the epochs that have ended
    has been unmapped once, and no other one has but those that are being drained, which have been passed to `munmap` in the epoch that
    is ending. -/
theorem unmapped_once (h : Reachable (system.restrict listsDrained) s) : ∃ early, s.unmapped.Perm (s.due ++ early) ∧
    (s.stage.unmaps = none → early = []) ∧ ∀ u, s.stage.unmaps = some u → (early ++ s.munmap u).Perm (s.passedBy u) := by
  obtain ⟨early, hheld⟩ : ∃ early, s.Held early :=
    Reachable.invariant (S := system.restrict listsDrained) (P := fun s => ∃ early, s.Held early) (fun _ h => ⟨[], .began h⟩)
      (fun _ _ _ ⟨_, h⟩ hs => h.exec hs.1 hs.2) h
  refine ⟨early, hheld.unmapped, hheld.early, fun u hu => ?_⟩
  have hpassed := hheld.passed u
  rw [if_pos hu] at hpassed
  exact hpassed.symm

instance : DecidablePred s.listsDrained := fun c =>
  match c with
  | .go _ => by
    rw [listsDrained]
    split
    · split <;> infer_instance
    all_goals infer_instance
  | .cancel _ u => inferInstanceAs (Decidable (s.munmap u = []))
  | .open .. | .dup .. | .dup2 .. | .opendir .. | .close .. | .closedir .. | .munmap .. | .threadCreate .. | .finish .. | .join ..
  | .deferSync .. | .commit .. => inferInstanceAs (Decidable True)

/-- Thread 0 ends the epoch: `n` steps. -/
def ending (n : Nat) : List Call := .commit 0 :: List.replicate n (.go 0)

/-- Thread 1 unmaps a region and is joined in the epoch after. -/
def unmapsEarly : List Call :=
  [.threadCreate 0 1, .munmap 1 ⟨4096, 4096⟩, .munmap 0 ⟨8192, 4096⟩] ++ ending 11 ++ [.finish 1, .join 0 1, .deferSync 0 1] ++ ending 7

theorem unmapped_once_early : ∃ s, Reachable (system.restrict listsDrained) s ∧ s.stage = .none ∧
    s.due = [⟨8192, 4096⟩, ⟨4096, 4096⟩] ∧ s.unmapped.Perm s.due := by
  have hrun : (unmapsEarly.foldlM (fun (s : State) c => if s.listsDrained c then s.exec c else none) start).map
      (fun s => (s.stage, s.due)) = some (.none, [⟨8192, 4096⟩, ⟨4096, 4096⟩]) := by
    decide +kernel
  obtain ⟨s, hs, heq⟩ := Option.map_eq_some_iff.mp hrun
  simp only [Prod.mk.injEq] at heq
  have hreach : Reachable (system.restrict listsDrained) s :=
    .of_foldlM_restrict (fun _ _ _ h => h) (.init start_began) hs
  obtain ⟨early, hperm, hearly, -⟩ := unmapped_once hreach
  rw [hearly (by rw [heq.1]; rfl), List.append_nil] at hperm
  exact ⟨s, hreach, heq.1, heq.2, hperm⟩

/-- Thread 1 unmaps a region, ends and is joined, all in one epoch. -/
def unmapsLast : List Call :=
  [.threadCreate 0 1, .munmap 1 ⟨4096, 4096⟩, .finish 1, .join 0 1, .deferSync 0 1] ++ ending 7

theorem unmapped_never : ¬ ∀ s, Reachable system s → s.stage = .none → s.unmapped.Perm s.due := by
  intro h
  have hrun : (unmapsLast.foldlM State.exec start).map (fun s => (s.stage, s.unmapped, s.due)) =
      some (.none, [], [⟨4096, 4096⟩]) := by
    decide +kernel
  obtain ⟨s, hs, heq⟩ := Option.map_eq_some_iff.mp hrun
  simp only [Prod.mk.injEq] at heq
  have hperm := h s (.of_foldlM (fun _ _ _ _ h => h) (.init start_began) hs) heq.1
  rw [heq.2.1, heq.2.2] at hperm
  exact absurd hperm.length_eq (by decide)

end State

end Deferred

end DoubleTake
