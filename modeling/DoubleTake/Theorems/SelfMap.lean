import DoubleTake.SelfMap

/-! What the constructor of `selfmap` makes of the lines of `/proc/self/maps`. It reads the inode into an `int`: from a line on whose
    inode does not fit, the stream is not good any more, so the path of that line is lost, and all lines behind it are. -/

namespace DoubleTake

open IStream (Later Shorter Ends isDigit value ofList hexULong decInt getN getline)

/-! ### Lines -/

/-- A line: the digits of its numbers, the flags, and the path with the blanks before it. -/
structure MapsLine where
  base : List Char
  limit : List Char
  readable : Bool
  writable : Bool
  executable : Bool
  copy_on_write : Bool
  offset : List Char
  dev_major : List Char
  dev_minor : List Char
  inode : List Char
  blanks : List Char
  path : List Char

/-- The digits of a number below a bound. -/
structure Number (base bound : Nat) (digits : List Char) : Prop where
  ne : digits ≠ []
  all : ∀ c ∈ digits, isDigit base c = true
  lt : value base digits < bound

theorem Number.of_all {base bound : Nat} {digits : List Char} (h : digits ≠ [] ∧ digits.all (isDigit base) = true ∧
    value base digits < bound) : Number base bound digits :=
  ⟨h.1, List.all_eq_true.mp h.2.1, h.2.2⟩

namespace MapsLine

def perms (l : MapsLine) : List Char :=
  [if l.readable then 'r' else '-', if l.writable then 'w' else '-', if l.executable then 'x' else '-',
    if l.copy_on_write then 'p' else 's']

def text (l : MapsLine) : List Char :=
  l.base ++ '-' :: (l.limit ++ ' ' :: (l.perms ++ ' ' :: (l.offset ++ ' ' :: (l.dev_major ++ ':' :: (l.dev_minor ++ ' ' ::
    (l.inode ++ (l.blanks ++ (l.path ++ ['\n']))))))))

def interval (l : MapsLine) : Interval := ⟨value 16 l.base, value 16 l.limit⟩

/-- What a line says. -/
def mapping (l : MapsLine) : Mapping where
  valid := true
  base := value 16 l.base
  limit := value 16 l.limit
  readable := l.readable
  writable := l.writable
  executable := l.executable
  copy_on_write := l.copy_on_write
  offset := value 16 l.offset
  file := l.path

structure WellFormed (l : MapsLine) : Prop where
  base : Number 16 (2 ^ 64) l.base
  limit : Number 16 (2 ^ 64) l.limit
  nonempty : value 16 l.base < value 16 l.limit
  offset : Number 16 (2 ^ 64) l.offset
  dev_major : Number 16 (2 ^ 64) l.dev_major
  dev_minor : Number 16 (2 ^ 64) l.dev_minor
  inode : Number 10 (2 ^ 64) l.inode
  blanks : ∀ c ∈ l.blanks, c = ' ' ∨ c = '\t'
  separated : l.path ≠ [] → l.blanks ≠ []
  oneLine : ∀ c ∈ l.path, c ≠ '\n'
  path : ∀ c ∈ l.path.head?, c ≠ ' ' ∧ c ≠ '\t'

theorem text_append (l : MapsLine) (cs : List Char) : l.text ++ cs =
    l.base ++ '-' :: (l.limit ++ ' ' :: (l.perms ++ ' ' :: (l.offset ++ ' ' :: (l.dev_major ++ ':' :: (l.dev_minor ++ ' ' ::
      (l.inode ++ (l.blanks ++ (l.path ++ '\n' :: cs)))))))) := by
  simp only [text, List.append_assoc, List.cons_append, List.nil_append]

theorem perms_ne (l : MapsLine) : ∀ c ∈ l.perms, c ≠ '\n' := by
  obtain ⟨_, _, readable, writable, executable, copy_on_write, _, _, _, _, _, _⟩ := l
  cases readable <;> cases writable <;> cases executable <;> cases copy_on_write <;> simp [perms]

theorem make_perms (l : MapsLine) (file : List Char) :
    Mapping.make (value 16 l.base) (value 16 l.limit) l.perms (value 16 l.offset) file = { l.mapping with file := file } := by
  obtain ⟨_, _, readable, writable, executable, copy_on_write, _, _, _, _, _, _⟩ := l
  cases readable <;> cases writable <;> cases executable <;> cases copy_on_write <;> rfl

end MapsLine

/-! ### One line -/

section
variable {l : MapsLine} {digits cs : List Char} {t : Char}

theorem Number.hexULong (h : Number 16 (2 ^ 64) digits) (ht : Ends 16 t) :
    hexULong (ofList (digits ++ t :: cs)) = (value 16 digits, ofList (t :: cs)) :=
  @IStream.hexULong_of_digits t cs [] digits (List.forall_mem_nil _) h.ne h.all ht h.lt

theorem Number.hexULong_space (h : Number 16 (2 ^ 64) digits) (ht : Ends 16 t) :
    IStream.hexULong (ofList (' ' :: (digits ++ t :: cs))) = (value 16 digits, ofList (t :: cs)) :=
  @IStream.hexULong_of_digits t cs [' '] digits (List.forall_mem_singleton.mpr rfl) h.ne h.all ht h.lt

theorem ends_hex : Ends 16 '-' ∧ Ends 16 ' ' ∧ Ends 16 ':' := by
  refine ⟨⟨rfl, ?_⟩, ⟨rfl, ?_⟩, ⟨rfl, ?_⟩⟩ <;> decide

theorem skipBlanks_append {blanks : List Char} (hblanks : ∀ c ∈ blanks, c = ' ' ∨ c = '\t') (ht : t ≠ ' ' ∧ t ≠ '\t') {n : Nat}
    (hn : blanks.length < n) : Mapping.skipBlanks n (ofList (blanks ++ t :: cs)) = ((), ofList (t :: cs)) := by
  induction blanks generalizing n with
  | nil =>
    obtain ⟨n, rfl⟩ := Nat.exists_eq_succ_of_ne_zero (Nat.ne_of_gt hn)
    rw [List.nil_append, Mapping.skipBlanks, IStream.bind_of_eq (IStream.peek_cons t cs), if_neg (by simpa using ht)]
    rfl
  | cons c blanks ih =>
    obtain ⟨n, rfl⟩ := Nat.exists_eq_succ_of_ne_zero (Nat.ne_of_gt (Nat.lt_of_le_of_lt (Nat.zero_le _) hn))
    rw [List.cons_append, Mapping.skipBlanks, IStream.bind_of_eq (IStream.peek_cons c _),
      if_pos (by simpa using hblanks c List.mem_cons_self), IStream.bind_of_eq (IStream.ignore_cons c _)]
    exact ih (fun c hc => hblanks c (List.mem_cons_of_mem _ hc)) (Nat.lt_of_succ_lt_succ hn)

/-- Nothing is skipped in a stream that has failed. -/
theorem skipBlanks_of_fail {f : IStream} (h : f.failbit = true) (n : Nat) : Mapping.skipBlanks n f = ((), f) := by
  cases n with
  | zero => rfl
  | succ n =>
    have hpeek : IStream.peek f = (none, f) := IStream.unformatted_of_fail h
    rw [Mapping.skipBlanks, IStream.bind_of_eq hpeek, if_neg (by simp)]
    rfl

/-- The inode is followed by a blank or by the end of the line. -/
theorem MapsLine.WellFormed.decInt (h : l.WellFormed) (cs : List Char) :
    IStream.decInt (ofList (' ' :: (l.inode ++ (l.blanks ++ (l.path ++ '\n' :: cs))))) =
      if value 10 l.inode < 2 ^ 31 then ((value 10 l.inode : Int), ofList (l.blanks ++ (l.path ++ '\n' :: cs)))
      else (2 ^ 31 - 1, ⟨l.blanks ++ (l.path ++ '\n' :: cs), false, true⟩) := by
  have hnext : ∃ t cs', l.blanks ++ (l.path ++ '\n' :: cs) = t :: cs' ∧ Ends 10 t := by
    cases hb : l.blanks with
    | nil =>
      have hpath : l.path = [] := Decidable.byContradiction fun hne => h.separated hne hb
      rw [hpath]
      exact ⟨'\n', cs, rfl, rfl, by decide⟩
    | cons c blanks =>
      rcases h.blanks c (hb ▸ List.mem_cons_self) with rfl | rfl
      · exact ⟨' ', _, rfl, rfl, by decide⟩
      · exact ⟨'\t', _, rfl, rfl, by decide⟩
  obtain ⟨t, cs', heq, ht⟩ := hnext
  rw [heq]
  exact @IStream.decInt_of_digits t cs' [' '] l.inode (List.forall_mem_singleton.mpr rfl) h.inode.ne h.inode.all ht

/-- Behind the inode the path is left. -/
theorem MapsLine.WellFormed.skipBlanks (h : l.WellFormed) {n : Nat} (hn : l.blanks.length < n) :
    Mapping.skipBlanks n (ofList (l.blanks ++ (l.path ++ '\n' :: cs))) = ((), ofList (l.path ++ '\n' :: cs)) := by
  cases hp : l.path with
  | nil => exact skipBlanks_append h.blanks (by decide) hn
  | cons c path => exact skipBlanks_append h.blanks (h.path c (by rw [hp]; rfl)) hn

/-- A line whose inode fits is read; if it does not fit, the path is not read, and the stream has failed. -/
theorem extract_line (h : l.WellFormed) (m : Mapping) : Mapping.extract m (ofList (l.text ++ cs)) =
    if value 10 l.inode < 2 ^ 31 then (l.mapping, ofList cs)
    else ({ l.mapping with file := [] }, ⟨l.blanks ++ (l.path ++ '\n' :: cs), false, true⟩) := by
  obtain ⟨hdash, hspace, hcolon⟩ := ends_hex
  have hperms (r : List Char) : getN 5 (ofList (l.perms ++ r)) = (l.perms, ofList r) :=
    IStream.getN_append l.perms_ne (List.cons_ne_nil _ _)
  rw [l.text_append, Mapping.extract, IStream.state_bind, if_pos (IStream.ready_of_good (IStream.good_ofList _))]
  -- Up to the inode every extraction finds what it looks for.
  rw [IStream.bind_of_eq (h.base.hexULong hdash), IStream.bind_of_eq (IStream.get_cons _ _), if_neg (not_not_intro rfl)]
  rw [IStream.bind_of_eq (h.limit.hexULong hspace), IStream.bind_of_eq (IStream.get_cons _ _), if_neg (not_not_intro rfl)]
  rw [IStream.bind_of_eq (hperms _), IStream.bind_of_eq (h.offset.hexULong_space hspace),
    IStream.bind_of_eq (h.dev_major.hexULong_space hcolon), IStream.bind_of_eq (IStream.get_cons _ _), if_neg (not_not_intro rfl)]
  rw [IStream.bind_of_eq (h.dev_minor.hexULong hspace)]
  by_cases hinode : value 10 l.inode < 2 ^ 31
  · have hread := (h.decInt cs).trans (if_pos hinode)
    rw [IStream.bind_of_eq hread, IStream.state_bind,
      IStream.bind_of_eq (h.skipBlanks (by simp only [ofList, List.length_append]; omega)),
      IStream.bind_of_eq (IStream.getline_append h.oneLine), l.make_perms, if_pos hinode]
    rfl
  · have hread := (h.decInt cs).trans (if_neg hinode)
    rw [IStream.bind_of_eq hread, IStream.state_bind, IStream.bind_of_eq (skipBlanks_of_fail rfl _)]
    have hline : getline ⟨l.blanks ++ (l.path ++ '\n' :: cs), false, true⟩ = ([], _) := IStream.unformatted_of_fail rfl
    rw [IStream.bind_of_eq hline, l.make_perms, if_neg hinode]
    rfl

end

/-! ### The loop -/

namespace SelfMap

variable {s : SelfMap} {got : Bool} {m : Mapping} {ms : List Mapping} {l : MapsLine} {lines : List MapsLine}

/-- The mappings that are extracted from lines. -/
def readLines : List MapsLine → List Mapping
  | [] => []
  | l :: ls => if value 10 l.inode < 2 ^ 31 then l.mapping :: readLines ls else [{ l.mapping with file := [] }]

/-- What the loop makes of extracted mappings; at the end it takes one that is empty. -/
def addAll (s : SelfMap) (got : Bool) : List Mapping → SelfMap
  | [] => s.add got Mapping.empty
  | m :: ms => addAll (s.add got m) true ms

theorem readMaps_of_good {f : IStream} (h : f.good = true) (n : Nat) : readMaps f s got (n + 1) =
    readMaps (Mapping.extract Mapping.empty f).2 (s.add got (Mapping.extract Mapping.empty f).1) true n := by
  rw [readMaps, if_pos (IStream.ready_of_good h)]
  rfl

theorem readMaps_of_not_good {f : IStream} (h : f.good = false) (n : Nat) : readMaps f s got (n + 1) = some s := by
  rw [readMaps, h]
  rfl

theorem readMaps_lines (hwf : ∀ l ∈ lines, l.WellFormed) {n : Nat} (hn : lines.length + 2 ≤ n) :
    readMaps (ofList (lines.flatMap MapsLine.text)) s got n = some (addAll s got (readLines lines)) := by
  induction lines generalizing s got n with
  | nil =>
    obtain ⟨n, rfl⟩ := Nat.exists_eq_add_of_le' hn
    rfl
  | cons l lines ih =>
    obtain ⟨n, rfl⟩ := Nat.exists_eq_add_of_le' hn
    rw [List.flatMap_cons, List.length_cons, show n + (lines.length + 1 + 2) = n + (lines.length + 2) + 1 by omega,
      readMaps_of_good (IStream.good_ofList _), extract_line (hwf l List.mem_cons_self), readLines]
    split
    · exact ih (fun l hl => hwf l (List.mem_cons_of_mem _ hl)) (Nat.le_add_left _ _)
    · exact readMaps_of_not_good rfl _

theorem length_le_text (lines : List MapsLine) : lines.length ≤ (lines.flatMap MapsLine.text).length := by
  induction lines with
  | nil => exact Nat.le_refl _
  | cons l lines ih =>
    have hpos : 0 < l.text.length := by
      rw [← List.append_nil l.text, l.text_append, List.length_append, List.length_cons]
      omega
    rw [List.flatMap_cons, List.length_append, List.length_cons]
    omega

/-- The rounds of the constructor are enough. -/
theorem selfmap_lines (hwf : ∀ l ∈ lines, l.WellFormed) :
    selfmap (lines.flatMap MapsLine.text) = some (addAll ⟨[], []⟩ false (readLines lines)) :=
  readMaps_lines hwf (Nat.add_le_add_right (length_le_text lines) 2)

/-! ### The map -/

/-- The entry of the map for a mapping. -/
def entry (m : Mapping) : Interval × Mapping := (⟨m.base, m.limit⟩, m)

def Before (a b : Interval × Mapping) : Prop := a.1.lt b.1 = true

/-- Intervals that do not overlap are never equal to the map. -/
def Apart (a b : Interval) : Prop := a.lt b = true ∨ b.lt a = true

theorem Apart.symm {a b : Interval} (h : Apart a b) : Apart b a := Or.symm h

theorem assign_perm {key : Interval} {l : List (Interval × Mapping)} (hkey : ∀ e ∈ l, Apart key e.1) :
    (assign key m l).Perm ((key, m) :: l) := by
  induction l with
  | nil => exact .refl _
  | cons e l ih =>
    obtain ⟨k, n⟩ := e
    rw [assign]
    split
    · exact .refl _
    · rename_i hlt
      have hgt : k.lt key = true := (hkey (k, n) List.mem_cons_self).resolve_left hlt
      rw [if_pos hgt]
      exact ((ih fun e he => hkey e (List.mem_cons_of_mem _ he)).cons _).trans (.swap ..)

theorem assign_ordered {key : Interval} {l : List (Interval × Mapping)} (hkey : ∀ e ∈ l, Apart key e.1)
    (hne : ∀ e ∈ l, e.1.base < e.1.limit) (hl : l.Pairwise Before) : (assign key m l).Pairwise Before := by
  induction l with
  | nil => exact List.pairwise_singleton _ _
  | cons e l ih =>
    obtain ⟨k, n⟩ := e
    obtain ⟨hhead, htail⟩ := List.pairwise_cons.mp hl
    have hkey' : ∀ e ∈ l, Apart key e.1 := fun e he => hkey e (List.mem_cons_of_mem _ he)
    rw [assign]
    split
    · rename_i hlt
      refine List.pairwise_cons.mpr ⟨fun e he => ?_, hl⟩
      rcases List.mem_cons.mp he with rfl | he
      · exact hlt
      · have hk := hne (k, n) List.mem_cons_self
        have hbefore := hhead e he
        simp only [Before, Interval.lt, decide_eq_true_eq] at hlt hbefore ⊢
        exact Nat.le_trans hlt (Nat.le_trans (Nat.le_of_lt hk) hbefore)
    · rename_i hlt
      have hgt : k.lt key = true := (hkey (k, n) List.mem_cons_self).resolve_left hlt
      rw [if_pos hgt]
      refine List.pairwise_cons.mpr ⟨fun e he => ?_, ih hkey' (fun e he => hne e (List.mem_cons_of_mem _ he)) htail⟩
      rcases List.mem_cons.mp ((assign_perm hkey').mem_iff.mp he) with rfl | he
      · exact hgt
      · exact hhead e he

/-- Mappings with entries that do not overlap each other, nor what is in the map. -/
structure Fresh (s : SelfMap) (ms : List Mapping) : Prop where
  valid : ∀ m ∈ ms, m.valid = true
  nonempty : ∀ m ∈ ms, m.base < m.limit
  apart : ms.Pairwise fun a b => Apart (entry a).1 (entry b).1
  new : ∀ m ∈ ms, ∀ e ∈ s.mappings, Apart (entry m).1 e.1

theorem add_mappings (hm : m.valid = true) : (s.add got m).mappings = assign (entry m).1 m s.mappings := by
  cases got <;> exact congrArg SelfMap.mappings (if_pos hm)

/-- All of them are added, in the order of the map. -/
theorem addAll_spec (h : Fresh s ms) (hne : ∀ e ∈ s.mappings, e.1.base < e.1.limit) (ho : s.mappings.Pairwise Before) :
    (addAll s got ms).mappings.Perm (ms.map entry ++ s.mappings) ∧ (addAll s got ms).mappings.Pairwise Before := by
  induction ms generalizing s got with
  | nil => cases got <;> exact ⟨.refl _, ho⟩
  | cons m ms ih =>
    obtain ⟨hhead, htail⟩ := List.pairwise_cons.mp h.apart
    have hadd : (s.add got m).mappings = assign (entry m).1 m s.mappings := add_mappings (h.valid m List.mem_cons_self)
    have hnew := h.new m List.mem_cons_self
    have hperm : (s.add got m).mappings.Perm (entry m :: s.mappings) := hadd ▸ assign_perm hnew
    have hfresh : Fresh (s.add got m) ms := by
      refine ⟨fun n hn => h.valid n (List.mem_cons_of_mem _ hn), fun n hn => h.nonempty n (List.mem_cons_of_mem _ hn), htail,
        fun n hn e he => ?_⟩
      rcases List.mem_cons.mp (hperm.mem_iff.mp he) with rfl | he
      · exact (hhead n hn).symm
      · exact h.new n (List.mem_cons_of_mem _ hn) e he
    have hne' : ∀ e ∈ (s.add got m).mappings, e.1.base < e.1.limit := by
      intro e he
      rcases List.mem_cons.mp (hperm.mem_iff.mp he) with rfl | he
      · exact h.nonempty m List.mem_cons_self
      · exact hne e he
    obtain ⟨hall, hordered⟩ := ih hfresh hne' (hadd ▸ assign_ordered hnew hne ho)
    exact ⟨hall.trans ((hperm.append_left _).trans List.perm_middle), hordered⟩

theorem addAll_main_exe_of_got : (addAll s true ms).main_exe = s.main_exe := by
  induction ms generalizing s with
  | nil => rfl
  | cons m ms ih =>
    rw [addAll, ih, add]
    split <;> rfl

theorem addAll_main_exe : (addAll s false (m :: ms)).main_exe = m.file := by
  rw [addAll, addAll_main_exe_of_got, add]
  split <;> rfl

/-! ### Any text -/

theorem skipBlanks_later (n : Nat) (f : IStream) : Later f (Mapping.skipBlanks n f).2 := by
  induction n generalizing f with
  | zero => exact Later.refl f
  | succ n ih =>
    refine IStream.bind_later f.peek_later fun c g => ?_
    split
    · exact IStream.bind_later g.ignore_later fun _ => ih
    · exact Later.refl g

/-- A stream that is still good after an extraction has lost characters: at least those of the first number. -/
theorem extract_shorter (m : Mapping) (f : IStream) : Shorter f (Mapping.extract m f).2 := by
  rw [Mapping.extract, IStream.state_bind]
  split
  · refine IStream.bind_shorter f.hexULong_shorter fun base f => IStream.bind_later f.get_later fun c f => ?_
    split
    · exact Later.refl f
    refine IStream.bind_later f.hexULong_later fun limit f => IStream.bind_later f.get_later fun c f => ?_
    split
    · exact Later.refl f
    refine IStream.bind_later (IStream.getN_later 5 f) fun perms f => IStream.bind_later f.hexULong_later fun offset f =>
      IStream.bind_later f.hexULong_later fun _ f => IStream.bind_later f.get_later fun c f => ?_
    split
    · exact Later.refl f
    refine IStream.bind_later f.hexULong_later fun _ f => IStream.bind_later f.decInt_later fun _ f => ?_
    rw [IStream.state_bind]
    exact IStream.bind_later (skipBlanks_later _ f) fun _ f => IStream.bind_later f.getline_later fun _ f => Later.refl f
  · rename_i hf
    exact fun hg => (hf (IStream.ready_of_good hg)).elim

theorem readMaps_terminates {n : Nat} (f : IStream) (hn : f.rest.length + 2 ≤ n) : ∃ t, readMaps f s got n = some t := by
  induction n generalizing f s got with
  | zero => omega
  | succ n ih =>
    cases hf : f.good with
    | false => exact ⟨s, readMaps_of_not_good hf n⟩
    | true =>
      rw [readMaps_of_good hf]
      have hshorter := extract_shorter Mapping.empty f
      generalize Mapping.extract Mapping.empty f = p at hshorter ⊢
      cases hg : p.2.good with
      | false =>
        obtain ⟨k, rfl⟩ := Nat.exists_eq_succ_of_ne_zero (show n ≠ 0 by omega)
        exact ⟨_, readMaps_of_not_good hg k⟩
      | true =>
        obtain ⟨-, hlt⟩ := hshorter hg
        exact ih p.2 (by omega)

/-- The constructor terminates on every text. -/
theorem selfmap_terminates (text : List Char) : ∃ s, selfmap text = some s := readMaps_terminates _ (Nat.le_refl _)

/-! ### What has been read -/

/-- No address is in both regions. -/
def MapsLine.Disjoint (a b : MapsLine) : Prop := ∀ x, ¬ (a.interval.contains x = true ∧ b.interval.contains x = true)

/-- Each inode fits an `int`, but for the one of the last line if that has no path. -/
def InodesFit (lines : List MapsLine) : Prop :=
  ∀ before l after, lines = before ++ l :: after → value 10 l.inode < 2 ^ 31 ∨ after = [] ∧ l.path = []

/-- There is one entry for each line, with what the line says, in the order of the addresses; and the path of the first line is
    known. -/
structure Parsed (lines : List MapsLine) (s : SelfMap) : Prop where
  entries : s.mappings.Perm (lines.map fun l => (l.interval, l.mapping))
  ordered : s.mappings.Pairwise fun a b => a.1.limit ≤ b.1.base
  main_exe : ∀ l, lines.head? = some l → s.main_exe = l.path

theorem apart_of_disjoint {a b : MapsLine} (ha : a.WellFormed) (hb : b.WellFormed) (h : MapsLine.Disjoint a b) :
    Apart a.interval b.interval := by
  have ha : a.interval.base < a.interval.limit := ha.nonempty
  have hb : b.interval.base < b.interval.limit := hb.nonempty
  have hmax := h (max a.interval.base b.interval.base)
  simp only [Interval.contains, Bool.and_eq_true, decide_eq_true_eq] at hmax
  simp only [Apart, Interval.lt, decide_eq_true_eq]
  omega

theorem mem_readLines (h : m ∈ readLines lines) : ∃ l ∈ lines, m.valid = true ∧ (entry m).1 = l.interval := by
  induction lines with
  | nil => cases h
  | cons l lines ih =>
    rw [readLines] at h
    split at h
    · rcases List.mem_cons.mp h with rfl | h
      · exact ⟨l, List.mem_cons_self, rfl, rfl⟩
      · obtain ⟨k, hk, hm⟩ := ih h
        exact ⟨k, List.mem_cons_of_mem _ hk, hm⟩
    · cases List.mem_singleton.mp h
      exact ⟨l, List.mem_cons_self, rfl, rfl⟩

theorem fresh_readLines (hwf : ∀ l ∈ lines, l.WellFormed) (hd : lines.Pairwise MapsLine.Disjoint) :
    Fresh ⟨[], []⟩ (readLines lines) where
  valid m hm := by
    obtain ⟨l, -, hvalid, -⟩ := mem_readLines hm
    exact hvalid
  nonempty m hm := by
    obtain ⟨l, hl, -, hentry⟩ := mem_readLines hm
    have hne : l.interval.base < l.interval.limit := (hwf l hl).nonempty
    rwa [← hentry] at hne
  apart := by
    induction lines with
    | nil => exact .nil
    | cons l lines ih =>
      obtain ⟨hhead, htail⟩ := List.pairwise_cons.mp hd
      have hwf' : ∀ k ∈ lines, k.WellFormed := fun k hk => hwf k (List.mem_cons_of_mem _ hk)
      rw [readLines]
      split
      · refine List.pairwise_cons.mpr ⟨fun m hm => ?_, ih hwf' htail⟩
        obtain ⟨k, hk, -, hentry⟩ := mem_readLines hm
        rw [hentry]
        exact apart_of_disjoint (hwf l List.mem_cons_self) (hwf' k hk) (hhead k hk)
      · exact List.pairwise_singleton _ _
  new m _ e he := (List.not_mem_nil he).elim

theorem inodesFit_cons : InodesFit (l :: lines) ↔
    (value 10 l.inode < 2 ^ 31 ∨ lines = [] ∧ l.path = []) ∧ InodesFit lines := by
  constructor
  · exact fun h => ⟨h [] l lines rfl, fun before k after heq => h (l :: before) k after (congrArg _ heq)⟩
  · rintro ⟨hl, h⟩ before k after heq
    cases before with
    | nil =>
      cases heq
      exact hl
    | cons j before =>
      cases heq
      exact h before k after rfl

theorem readLines_of_fit (h : InodesFit lines) : readLines lines = lines.map MapsLine.mapping := by
  induction lines with
  | nil => rfl
  | cons l lines ih =>
    obtain ⟨hl, htail⟩ := inodesFit_cons.mp h
    rw [readLines, List.map_cons]
    split
    · rw [ih htail]
    · rename_i hinode
      obtain ⟨rfl, hpath⟩ := hl.resolve_left hinode
      rw [← hpath]
      rfl

/-- Only where the inodes fit, what is read is what the lines say. -/
theorem fit_of_perm (h : (readLines lines).Perm (lines.map MapsLine.mapping)) : InodesFit lines := by
  induction lines with
  | nil => exact fun before _ _ heq => by cases before <;> cases heq
  | cons l lines ih =>
    rw [readLines, List.map_cons] at h
    split at h
    · rename_i hinode
      exact inodesFit_cons.mpr ⟨.inl hinode, ih ((List.perm_cons _).mp h)⟩
    · have hnil : lines = [] := List.map_eq_nil_iff.mp (List.length_eq_zero_iff.mp (Nat.succ.inj h.length_eq.symm))
      subst hnil
      have hpath : [] = l.path := congrArg Mapping.file (List.singleton_perm_singleton.mp h)
      exact inodesFit_cons.mpr ⟨.inr ⟨rfl, hpath.symm⟩, ih (.refl _)⟩

theorem map_entry (lines : List MapsLine) :
    (lines.map MapsLine.mapping).map entry = lines.map fun l => (l.interval, l.mapping) := by
  rw [List.map_map]
  rfl

theorem map_snd_entry (ms : List Mapping) : (ms.map entry).map Prod.snd = ms := by
  rw [List.map_map]
  exact List.map_id _

/-- For lines of regions that are disjoint the constructor terminates, and it has read them exactly if their inodes fit. -/
theorem lines_parsed_iff (hwf : ∀ l ∈ lines, l.WellFormed) (hd : lines.Pairwise MapsLine.Disjoint) :
    (∃ s, selfmap (lines.flatMap MapsLine.text) = some s ∧ Parsed lines s) ↔ InodesFit lines := by
  have hsome := selfmap_lines hwf
  have hall : (addAll ⟨[], []⟩ false (readLines lines)).mappings.Perm ((readLines lines).map entry ++ []) ∧
      (addAll ⟨[], []⟩ false (readLines lines)).mappings.Pairwise Before :=
    addAll_spec (fresh_readLines hwf hd) (fun e he => (List.not_mem_nil he).elim) .nil
  obtain ⟨hperm, hordered⟩ := hall
  rw [List.append_nil] at hperm
  constructor
  · rintro ⟨s, hs, hparsed⟩
    cases hsome.symm.trans hs
    have hmap := (hperm.symm.trans (map_entry lines ▸ hparsed.entries)).map Prod.snd
    rw [map_snd_entry, map_snd_entry] at hmap
    exact fit_of_perm hmap
  · intro hfit
    rw [readLines_of_fit hfit] at hsome hperm hordered
    refine ⟨_, hsome, map_entry lines ▸ hperm, hordered.imp decide_eq_true_eq.mp, fun l hl => ?_⟩
    obtain ⟨ls, rfl⟩ := List.head?_eq_some_iff.mp hl
    exact addAll_main_exe

/-! Two lines, the first of a file with the inode `2147483648`. -/

def mainLine (inode : List Char) : MapsLine where
  base := ['4', '0', '0', '0', '0', '0']
  limit := ['4', '0', 'b', '0', '0', '0']
  readable := true
  writable := false
  executable := true
  copy_on_write := true
  offset := ['0', '0', '0', '0', '0', '0', '0', '0']
  dev_major := ['0', '8']
  dev_minor := ['0', '2']
  inode := inode
  blanks := [' ', ' ', ' ']
  path := ['/', 'b', 'i', 'n', '/', 'c', 'a', 't']

def stackLine : MapsLine where
  base := ['7', 'f', 'f', 'c', '0', '0', '0', '0']
  limit := ['7', 'f', 'f', 'e', '0', '0', '0', '0']
  readable := true
  writable := true
  executable := false
  copy_on_write := true
  offset := ['0', '0', '0', '0', '0', '0', '0', '0']
  dev_major := ['0', '0']
  dev_minor := ['0', '0']
  inode := ['0']
  blanks := [' ', ' ']
  path := ['[', 's', 't', 'a', 'c', 'k', ']']

def smallInode : List Char := ['2', '1', '4', '7', '4', '8', '3', '6', '4', '7']

def largeInode : List Char := ['2', '1', '4', '7', '4', '8', '3', '6', '4', '8']

theorem mainLine_wellFormed {inode : List Char} (h : Number 10 (2 ^ 64) inode) : (mainLine inode).WellFormed where
  base := .of_all (by dsimp only [mainLine]; decide)
  limit := .of_all (by dsimp only [mainLine]; decide)
  nonempty := by dsimp only [mainLine]; decide
  offset := .of_all (by dsimp only [mainLine]; decide)
  dev_major := .of_all (by dsimp only [mainLine]; decide)
  dev_minor := .of_all (by dsimp only [mainLine]; decide)
  inode := h
  blanks := by simp [mainLine]
  separated _ := List.cons_ne_nil _ _
  oneLine := by simp [mainLine]
  path := by simp [mainLine]

theorem stackLine_wellFormed : stackLine.WellFormed where
  base := .of_all (by decide)
  limit := .of_all (by decide)
  nonempty := by decide
  offset := .of_all (by decide)
  dev_major := .of_all (by decide)
  dev_minor := .of_all (by decide)
  inode := .of_all (by decide)
  blanks := by simp [stackLine]
  separated _ := List.cons_ne_nil _ _
  oneLine := by simp [stackLine]
  path := by simp [stackLine]

theorem lines_wellFormed {inode : List Char} (h : Number 10 (2 ^ 64) inode) : ∀ l ∈ [mainLine inode, stackLine], l.WellFormed :=
  List.forall_mem_cons.mpr ⟨mainLine_wellFormed h, List.forall_mem_singleton.mpr stackLine_wellFormed⟩

theorem mainLine_disjoint (inode : List Char) : MapsLine.Disjoint (mainLine inode) stackLine := by
  intro x hx
  have hmain : (mainLine inode).interval = ⟨0x400000, 0x40B000⟩ := rfl
  have hstack : stackLine.interval = ⟨0x7FFC0000, 0x7FFE0000⟩ := rfl
  rw [hmain, hstack] at hx
  simp only [Interval.contains, Bool.and_eq_true, decide_eq_true_eq] at hx
  omega

theorem lines_parsed_small : ∃ s, selfmap ([mainLine smallInode, stackLine].flatMap MapsLine.text) = some s ∧
    Parsed [mainLine smallInode, stackLine] s := by
  refine (lines_parsed_iff (lines_wellFormed (.of_all (by decide))) (List.pairwise_pair.mpr (mainLine_disjoint _))).mpr ?_
  intro before l after hlines
  have hsmall : ∀ l ∈ [mainLine smallInode, stackLine], value 10 l.inode < 2 ^ 31 := by decide
  exact .inl (hsmall l (hlines ▸ List.mem_append_right _ List.mem_cons_self))

/-- The path of the file is lost, and so is the line of the stack. -/
theorem large_inode_stops : (∀ l ∈ [mainLine largeInode, stackLine], l.WellFormed) ∧
    [mainLine largeInode, stackLine].Pairwise MapsLine.Disjoint ∧
    ¬ ∃ s, selfmap ([mainLine largeInode, stackLine].flatMap MapsLine.text) = some s ∧
      Parsed [mainLine largeInode, stackLine] s := by
  refine ⟨lines_wellFormed (.of_all (by decide)), List.pairwise_pair.mpr (mainLine_disjoint _), ?_⟩
  rintro ⟨s, hs, hparsed⟩
  have hread : (selfmap ([mainLine largeInode, stackLine].flatMap MapsLine.text)).map (fun s => s.mappings.length) = some 1 := by
    decide
  rw [hs] at hread
  have hone : s.mappings.length = 1 := Option.some.inj hread
  have htwo : s.mappings.length = 2 := hparsed.entries.length_eq
  omega

end SelfMap

end DoubleTake
