import DoubleTake.Reads
import DoubleTake.Theorems.Scan

/-! What a call that reads changes. The bytes that are stored before the real call are zero afterwards, unless the real call
    has stored something else there: the call changes only what it returns exactly if these bytes are among those returned, or
    were zero before. -/

namespace DoubleTake

namespace Reads

variable {m : Mem} {a : Nat} {s t : State} {c : Call} {answer : Answer} {r : Int}

/-! ### Before the real call -/

/-- Where `makeWritable` stores. -/
def touched (buf count : Nat) : List Nat :=
  ((List.range ((toInt32 count).tdiv PageSize).toNat).map fun (i : Nat) => index buf (i * PageSize)) ++
    [index buf (toInt32 (toInt32 count - 1))]

theorem makeWritable_eq (m : Mem) (buf count : Nat) :
    makeWritable m buf count = (touched buf count).foldl (fun m a => m.set a 0) m := by
  simp only [makeWritable, touched, List.foldl_append, List.foldl_map, List.foldl_cons, List.foldl_nil]

/-- Where the rounds of the first loop of `readv` store. A round sees what the ones before it have stored. -/
def touchedBy (vector : Nat) : Mem → List Nat → List Nat
  | _, [] => []
  | m, i :: is =>
    let v := vecAt m vector i
    touched v.iov_base v.iov_len ++ touchedBy vector (makeWritable m v.iov_base v.iov_len) is

theorem makeVectorWritable_eq (vector : Nat) (is : List Nat) :
    is.foldl (fun m i => makeWritable m (vecAt m vector i).iov_base (vecAt m vector i).iov_len) m =
      (touchedBy vector m is).foldl (fun m a => m.set a 0) m := by
  induction is generalizing m with
  | nil => rw [touchedBy, List.foldl_nil, List.foldl_nil]
  | cons i is ih =>
    rw [touchedBy, List.foldl_append, ← makeWritable_eq]
    exact ih

namespace Call

def fd : Call → Int
  | .read fd _ _ | .pread fd _ _ _ | .readv fd _ _ => fd

/-- Where the call stores before the real one. -/
def touched (m : Mem) : Call → List Nat
  | .read _ buf count | .pread _ buf count _ => Reads.touched buf count
  | .readv _ vector count => touchedBy vector m (List.range count.toNat)

/-- The memory that the real call finds. -/
def writable (m : Mem) (c : Call) : Mem := (c.touched m).foldl (fun m a => m.set a 0) m

def buffers (m : Mem) : Call → List IoVec
  | .read _ buf count | .pread _ buf count _ => [⟨buf, count⟩]
  | .readv _ vector count => buffersAt m vector count

/-- The first `r` bytes of the buffers. -/
def region (m : Mem) (c : Call) (r : Int) : List Nat := (addresses (c.buffers m)).take r.toNat

theorem writable_apply (c : Call) : c.writable m a = if a ∈ c.touched m then 0 else m a := Mem.foldl_set_const 0

end Call

/-! ### The real call -/

theorem Answer.length_eq (answer : Answer) : (answer.getD []).length = answer.ret.toNat := by
  cases answer <;> rfl

/-- As many bytes are stored to as there is data. -/
theorem map_fst_zip_take (l : List Nat) (data : List UInt8) : (l.zip data).map Prod.fst = l.take data.length := by
  induction l generalizing data with
  | nil => rw [List.zip_nil_left, List.map_nil, List.take_nil]
  | cons a l ih =>
    cases data with
    | nil => rfl
    | cons v data => rw [List.zip_cons_cons, List.map_cons, ih, List.length_cons, List.take_succ_cons]

/-- The real call stores in the first bytes of the buffers. -/
theorem fill_of_not_mem {buffers : List IoVec} (h : a ∉ (addresses buffers).take answer.ret.toNat) :
    fill m buffers answer a = m a := by
  refine Mem.foldl_set_of_not_mem ?_
  rwa [map_fst_zip_take, Answer.length_eq]

/-- Any value may come to each of them. -/
theorem fill_replicate {buffers : List IoVec} {n : Nat} (v : UInt8) (h : a ∈ (addresses buffers).take n) :
    fill m buffers (some (List.replicate n v)) a = v := by
  have hv : ∀ s ∈ (addresses buffers).zip (List.replicate n v), s.2 = v := fun s hs =>
    List.eq_of_mem_replicate (List.of_mem_zip hs).2
  rw [fill, Option.getD_some, Mem.foldl_set_same hv, map_fst_zip_take, List.length_replicate, if_pos h]

namespace State

theorem mem_epochEnd (h : s.epochEnd = some t) : t.mem = s.mem := by
  obtain ⟨⟨hasOverflow, memory⟩, hscan, h⟩ := Option.bind_eq_some_iff.mp h
  cases hasOverflow with
  | true => cases h
  | false =>
    obtain ⟨fops, -, h⟩ := Option.bind_eq_some_iff.mp h
    cases h
    exact XMemory.checkHeapOverflow_mem (Except.of_toOption hscan)

theorem mem_onFile {fd : Int} {real : Mem → Mem} (h : s.onFile fd real = some t) : t.mem = real s.mem := by
  rw [onFile] at h
  split at h
  next =>
    cases h
    rfl
  next =>
    obtain ⟨s₁, hend, h⟩ := Option.bind_eq_some_iff.mp h
    cases h
    exact congrArg real (mem_epochEnd hend)

/-- Whether the call returns does not depend on what is stored. -/
theorem onFile_isSome {fd : Int} {real real' : Mem → Mem} (h : (s.onFile fd real).isSome = true) :
    (s.onFile fd real').isSome = true := by
  rw [onFile] at h ⊢
  split at h
  next hp => rw [if_pos hp, Option.isSome_some]
  next hp =>
    rw [if_neg hp]
    cases hend : s.epochEnd with
    | none =>
      rw [hend] at h
      exact absurd h Bool.false_ne_true
    | some s₁ => rfl

theorem exec_eq (s : State) (answer : Answer) (c : Call) : s.exec answer c =
    ((s.setMem (c.writable s.mem)).onFile c.fd fun m => fill m (c.buffers m) answer).map fun t => (t, answer.ret) := by
  cases c with
  | read fd buf count =>
    rw [Call.writable, Call.touched, ← makeWritable_eq]
    exact (Option.map_eq_bind ..).symm
  | pread fd buf count offset =>
    rw [Call.writable, Call.touched, ← makeWritable_eq]
    exact (Option.map_eq_bind ..).symm
  | readv fd vector count =>
    rw [Call.writable, Call.touched, ← makeVectorWritable_eq]
    exact (Option.map_eq_bind ..).symm

/-- What a call that returns leaves. -/
theorem exec_some (h : s.exec answer c = some (t, r)) : r = answer.ret ∧
    t.mem = fill (c.writable s.mem) (c.buffers (c.writable s.mem)) answer := by
  rw [exec_eq] at h
  obtain ⟨t', ht, heq⟩ := Option.map_eq_some_iff.mp h
  cases heq
  exact ⟨rfl, mem_onFile ht⟩

theorem exec_returns {a : Answer} (h : s.exec a c = some (t, r)) (answer' : Answer) : ∃ t', s.exec answer' c = some (t', answer'.ret) := by
  rw [exec_eq] at h
  obtain ⟨t', ht, -⟩ := Option.map_eq_some_iff.mp h
  obtain ⟨u, hu⟩ := Option.isSome_iff_exists.mp (onFile_isSome (Option.isSome_iff_exists.mpr ⟨t', ht⟩))
  refine ⟨u, ?_⟩
  rw [exec_eq, hu]
  rfl

/-! ### The frame -/

/-- When the call returns `r`, it has changed the first `r` bytes of the buffers at most, whatever it has read. -/
def ReadsOnly (s : State) (c : Call) (r : Int) : Prop :=
  ∀ answer t, s.exec answer c = some (t, r) → ∀ a ∉ c.region s.mem r, t.mem a = s.mem a

/-- It does so when the bytes that it stores to beforehand are among these or are zero, and the stores do not move the buffers. -/
theorem readsOnly_of (htouched : ∀ a ∈ c.touched s.mem, a ∈ c.region s.mem r ∨ s.mem a = 0)
    (hmoved : ∀ a ∈ c.region (c.writable s.mem) r, a ∈ c.region s.mem r) : s.ReadsOnly c r := by
  intro answer t h a ha
  obtain ⟨hret, hmem⟩ := exec_some h
  rw [hmem, fill_of_not_mem (hret ▸ mt (hmoved a) ha), Call.writable_apply]
  split
  next hta => exact ((htouched a hta).resolve_left ha).symm
  next => rfl

/-- As any bytes may have been read, the buffers that the real call finds are among those that the caller gives. -/
theorem ReadsOnly.region (hkeep : s.ReadsOnly c r) (h : s.exec answer c = some (t, r)) (ha : a ∈ c.region (c.writable s.mem) r) :
    a ∈ c.region s.mem r := by
  by_contra hnot
  have hpos : 0 ≤ r := by
    by_contra hneg
    rw [Call.region, Int.toNat_of_nonpos (by omega), List.take_zero] at ha
    cases ha
  have hval : ∀ v : UInt8, v = s.mem a := by
    intro v
    have hr : Answer.ret (some (List.replicate r.toNat v)) = r := by
      rw [Answer.ret, Option.elim_some, List.length_replicate, Int.toNat_of_nonneg hpos]
    obtain ⟨t', ht'⟩ := exec_returns h (some (List.replicate r.toNat v))
    rw [hr] at ht'
    rw [← hkeep _ _ ht' a hnot, (exec_some ht').2, fill_replicate v ha]
  exact absurd ((hval 0).trans (hval 1).symm) (by decide)

/-- A call that returns `r` changes only what it returns exactly if the bytes that it stores to beforehand are among the first `r`
    bytes of the buffers or are zero, and these stores do not move the buffers. -/
theorem reads_only_iff (h : s.exec answer c = some (t, r)) : s.ReadsOnly c r ↔
    (∀ a ∈ c.touched s.mem, a ∈ c.region s.mem r ∨ s.mem a = 0) ∧
      ∀ a ∈ c.region (c.writable s.mem) r, a ∈ c.region s.mem r := by
  constructor
  · intro hkeep
    have hmoved : ∀ a ∈ c.region (c.writable s.mem) r, a ∈ c.region s.mem r := fun a => hkeep.region h
    obtain ⟨hret, hmem⟩ := exec_some h
    refine ⟨fun a ha => ?_, hmoved⟩
    by_cases hin : a ∈ c.region s.mem r
    · exact .inl hin
    · right
      rw [← hkeep _ _ h a hin, hmem, fill_of_not_mem (hret ▸ mt (hmoved a) hin), Call.writable_apply, if_pos ha]
  · rintro ⟨htouched, hmoved⟩
    exact readsOnly_of htouched hmoved

/-- A process at its start, with the memory `m`. -/
def started (m : Mem) : State :=
  ⟨DoubleTake.State.start.rt.setMem m, ⟨[], [], [], [], 0, ⟨[0, 1, 2, 3], [], [], []⟩, []⟩, 0, []⟩

/-- A memory of ones, but for the last byte of a buffer of 16 bytes at 1000. -/
def onesThenZero (a : Nat) : UInt8 := if a = 1015 then 0 else 1

/-- Three bytes are read into it. -/
theorem reads_only_three : ∃ t, (started onesThenZero).exec (some [7, 8, 9]) (.read 3 1000 16) = some (t, 3) ∧
    (started onesThenZero).ReadsOnly (.read 3 1000 16) 3 ∧ t.mem 1002 = 9 ∧ t.mem 1003 = 1 ∧ t.mem 1015 = 0 := by
  obtain ⟨t, ht⟩ := exec_returns (s := started onesThenZero) (c := .read 3 1000 16) (a := none) rfl (some [7, 8, 9])
  have htouched : Reads.touched 1000 16 = [1015] := by decide
  have hregion : (Call.read 3 1000 16).region (started onesThenZero).mem 3 = [1000, 1001, 1002] := by decide
  have hkeep : (started onesThenZero).ReadsOnly (.read 3 1000 16) 3 := by
    refine (reads_only_iff ht).mpr ⟨fun a ha => .inr ?_, fun a => id⟩
    rw [Call.touched, htouched] at ha
    cases List.mem_singleton.mp ha
    rfl
  refine ⟨t, ht, hkeep, ?_, ?_, ?_⟩
  · rw [(exec_some ht).2]
    decide
  · exact hkeep _ _ ht 1003 (by rw [hregion]; decide)
  · exact hkeep _ _ ht 1015 (by rw [hregion]; decide)

/-- At the end of a file the last byte of the buffer is cleared. -/
theorem end_of_file_clears : ¬ ∀ s c answer t r, State.exec s answer c = some (t, r) → s.ReadsOnly c r := by
  intro h
  obtain ⟨t, ht⟩ := exec_returns (s := started fun _ => 1) (c := .read 3 1000 16) (a := none) rfl (some [])
  have hkeep : t.mem 1015 = 1 := h _ _ _ _ _ ht _ _ ht 1015 (by decide)
  rw [(exec_some ht).2, fill_of_not_mem (by decide), Call.writable_apply, if_pos (by decide)] at hkeep
  exact absurd hkeep (by decide)

/-! ### Calls that fill the buffer -/

theorem touched_of_lt {buf count : Nat} (h₀ : 0 < count) (h : count < 2 ^ 31) : touched buf count =
    ((List.range (count / PageSize)).map fun (i : Nat) => index buf (i * PageSize)) ++ [index buf (count - 1 : Nat)] := by
  have hlast : toInt32 (count - 1 : Int) = (count - 1 : Nat) := by
    rw [toInt32_of_lt (by omega) (by omega)]
    omega
  have hpages : ((count : Int).tdiv PageSize).toNat = count / PageSize := by
    rw [Int.tdiv_eq_ediv_of_nonneg (by omega), ← Int.natCast_ediv, Int.toNat_natCast]
  rw [touched, toInt32_of_lt (by omega) (by omega), hlast, hpages]

/-- A `read` that fills the buffer changes nothing else. -/
theorem readsOnly_full {fd : Int} {buf count : Nat} (h₀ : 0 < count) (h : count < 2 ^ 31) :
    s.ReadsOnly (.read fd buf count) count := by
  have hregion : ∀ m, (Call.read fd buf count).region m count = (List.range count).map fun (j : Nat) => index buf j := fun m => by
    rw [Call.region, Int.toNat_natCast, Call.buffers, addresses, List.flatMap_singleton, List.take_of_length_le (by simp)]
  refine readsOnly_of (fun a ha => .inl ?_) fun a ha => by rwa [hregion] at ha ⊢
  rw [hregion]
  rw [Call.touched, touched_of_lt h₀ h, List.mem_append, List.mem_singleton] at ha
  rcases ha with hpage | rfl
  · obtain ⟨i, hi, rfl⟩ := List.mem_map.mp hpage
    rw [List.mem_range] at hi
    have hlt : i * PageSize < count := (Nat.mul_lt_mul_of_pos_right hi (by decide)).trans_le (Nat.div_mul_le_self ..)
    exact List.mem_map.mpr ⟨i * PageSize, List.mem_range.mpr hlt, by rw [Nat.cast_mul]⟩
  · exact List.mem_map.mpr ⟨count - 1, List.mem_range.mpr (by omega), rfl⟩

end State

end Reads

end DoubleTake
