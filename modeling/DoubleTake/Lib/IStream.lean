import Mathlib.Algebra.Group.Int.Defs
import Mathlib.Algebra.Group.Nat.Defs
import Mathlib.Data.List.TakeWhile

/-! Input streams of characters as in C++: what the extractions take, and the state bits that they leave. A stream that is not good
    hands out nothing more. -/

/-- The characters that remain, with `eofbit` and `failbit`. -/
structure IStream where
  rest : List Char
  eofbit : Bool
  failbit : Bool
  deriving DecidableEq, Repr

namespace IStream

def good (f : IStream) : Bool := !f.eofbit && !f.failbit

/-- A stream before any extraction. -/
def ofList (cs : List Char) : IStream := ⟨cs, false, false⟩

/-- What an extraction returns, and the stream that it leaves. -/
abbrev Extraction := StateM IStream

/-- The sentry of an unformatted extraction: it is made only from a good stream. -/
def unformatted {α : Type} (nothing : α) (extract : IStream → α × IStream) : Extraction α := fun f =>
  if f.good then extract f else (nothing, { f with failbit := true })

/-! ### Unformatted extraction -/

/-- `get()`; `none` is `EOF`. -/
def get : Extraction (Option Char) := unformatted none fun f =>
  match f.rest with
  | [] => (none, { f with eofbit := true, failbit := true })
  | c :: cs => (some c, { f with rest := cs })

/-- `peek()`. -/
def peek : Extraction (Option Char) := unformatted none fun f =>
  match f.rest with
  | [] => (none, { f with eofbit := true })
  | c :: _ => (some c, f)

/-- `ignore(1)`. -/
def ignore : Extraction Unit := unformatted () fun f =>
  match f.rest with
  | [] => ((), { f with eofbit := true })
  | _ :: cs => ((), { f with rest := cs })

/-- `get(s, n)`: less than `n` characters, and none from the end of the line on. -/
def getN (n : Nat) : Extraction (List Char) := unformatted [] fun f =>
  let s := (f.rest.take (n - 1)).takeWhile (· ≠ '\n')
  let cs := f.rest.drop s.length
  (s, { rest := cs, eofbit := decide (s.length < n - 1) && cs.isEmpty, failbit := s.isEmpty })

/-- `getline(f, s)`. -/
def getline : Extraction (List Char) := unformatted [] fun f =>
  let s := f.rest.takeWhile (· ≠ '\n')
  match f.rest.dropWhile (· ≠ '\n') with
  | [] => (s, { rest := [], eofbit := true, failbit := s.isEmpty })
  | _ :: cs => (s, { f with rest := cs })

/-! ### Numbers -/

/-- `isspace`. -/
def isSpace (c : Char) : Bool := c.toNat == 32 || decide (9 ≤ c.toNat ∧ c.toNat ≤ 13)

def digitVal (base : Nat) (c : Char) : Option Nat :=
  let n := c.toNat
  let d := if 48 ≤ n ∧ n ≤ 57 then some (n - 48)
    else if 97 ≤ n ∧ n ≤ 102 then some (n - 87)
    else if 65 ≤ n ∧ n ≤ 70 then some (n - 55)
    else none
  d.filter (· < base)

def isDigit (base : Nat) (c : Char) : Bool := (digitVal base c).isSome

/-- The number that digits stand for. -/
def value (base : Nat) (digits : List Char) : Nat := digits.foldl (fun n c => n * base + (digitVal base c).getD 0) 0

/-- A sign: whether it is a minus, and what follows it. -/
def skipSign : List Char → Bool × List Char
  | [] => (false, [])
  | c :: cs => if c = '-' then (true, cs) else if c = '+' then (false, cs) else (false, c :: cs)

/-- The `0x` of a number of base 16. -/
def skipPrefix (base : Nat) : List Char → List Char
  | c :: x :: cs => if base = 16 ∧ c = '0' ∧ (x = 'x' ∨ x = 'X') then cs else c :: x :: cs
  | cs => cs

/-- `f >> n`, where `convert` is given the sign and the number, and says what is stored and whether that is in range. Nothing is
    stored if there is no character but white space, or if the stream is not good; the result is `unset` then. -/
def number {α : Type} (base : Nat) (unset zero : α) (convert : Bool → Nat → α × Bool) : Extraction α := fun f =>
  if f.good then
    match f.rest.dropWhile isSpace with
    | [] => (unset, ⟨[], true, true⟩)
    | c :: cs =>
      let (negative, cs) := skipSign (c :: cs)
      let cs := skipPrefix base cs
      let digits := cs.takeWhile (isDigit base)
      let cs := cs.dropWhile (isDigit base)
      let (n, inRange) := if digits.isEmpty then (zero, false) else convert negative (value base digits)
      (n, ⟨cs, cs.isEmpty, !inRange⟩)
  else (unset, { f with failbit := true })

/-- A number for an `unsigned long`. -/
def toULong (negative : Bool) (n : Nat) : Nat × Bool :=
  if n < 2 ^ 64 then (if negative then (2 ^ 64 - n) % 2 ^ 64 else n, true) else (2 ^ 64 - 1, false)

/-- A number for an `int`. -/
def toInt (negative : Bool) (n : Nat) : Int × Bool :=
  if negative then (if n ≤ 2 ^ 31 then (-n, true) else (-2 ^ 31, false))
  else if n < 2 ^ 31 then (n, true) else (2 ^ 31 - 1, false)

/-- `f >> std::hex >> n`. -/
def hexULong : Extraction Nat := number 16 0 0 toULong

/-- `f >> std::dec >> n`. -/
def decInt : Extraction Int := number 10 0 0 toInt

section
variable {f : IStream} {base n : Nat} {c t : Char} {s cs : List Char}

/-! ### What is extracted -/

@[simp] theorem good_ofList (cs : List Char) : (ofList cs).good = true := rfl

theorem ready_of_good (h : f.good = true) : (f.good && !f.eofbit) = true := by
  rw [h, Bool.true_and]
  exact (Bool.and_eq_true_iff.mp h).1

theorem good_of_fail (h : f.failbit = true) : f.good = false := by
  rw [good, h]
  simp

/-- What an extraction returns is handed on, with the stream that it leaves. -/
theorem bind_of_eq {α β : Type} {x : Extraction α} {k : α → Extraction β} {a : α} {g : IStream} (h : x f = (a, g)) :
    (x >>= k) f = k a g := by
  change k (x f).1 (x f).2 = k a g
  rw [h]

theorem state_bind {β : Type} {k : IStream → Extraction β} : ((MonadState.get : Extraction IStream) >>= k) f = k f f := rfl

theorem unformatted_of_good {α : Type} {nothing : α} {extract : IStream → α × IStream} (h : f.good = true) :
    unformatted nothing extract f = extract f := if_pos h

theorem unformatted_of_fail {α : Type} {nothing : α} {extract : IStream → α × IStream} (h : f.failbit = true) :
    unformatted nothing extract f = (nothing, f) := by
  obtain ⟨rest, eofbit, failbit⟩ := f
  cases h
  rw [unformatted, good_of_fail rfl]
  rfl

theorem get_cons (c : Char) (cs : List Char) : get (ofList (c :: cs)) = (some c, ofList cs) := rfl

theorem peek_cons (c : Char) (cs : List Char) : peek (ofList (c :: cs)) = (some c, ofList (c :: cs)) := rfl

theorem ignore_cons (c : Char) (cs : List Char) : ignore (ofList (c :: cs)) = ((), ofList cs) := rfl

/-- As many characters as there is room for. -/
theorem getN_append (hs : ∀ c ∈ s, c ≠ '\n') (hne : s ≠ []) : getN (s.length + 1) (ofList (s ++ cs)) = (s, ofList cs) := by
  have htake : ((s ++ cs).take s.length).takeWhile (· ≠ '\n') = s := by
    rw [List.take_left, List.takeWhile_eq_self_iff]
    simpa using hs
  rw [getN, unformatted_of_good (good_ofList _)]
  dsimp only [ofList]
  rw [Nat.add_sub_cancel, htake, List.drop_left, List.isEmpty_eq_false_iff.mpr hne, decide_eq_false (Nat.lt_irrefl s.length)]
  rfl

/-- A line with its end. -/
theorem getline_append (hs : ∀ c ∈ s, c ≠ '\n') : getline (ofList (s ++ '\n' :: cs)) = (s, ofList cs) := by
  have hall : ∀ c ∈ s, decide (c ≠ '\n') = true := fun c hc => decide_eq_true (hs c hc)
  rw [getline, unformatted_of_good (good_ofList _)]
  dsimp only [ofList]
  rw [List.takeWhile_append_of_pos hall, List.dropWhile_append_of_pos hall, List.takeWhile_cons_of_neg (by simp),
    List.dropWhile_cons_of_neg (by simp), List.append_nil]

theorem range_of_isDigit (h : isDigit base c = true) :
    48 ≤ c.toNat ∧ c.toNat ≤ 57 ∨ 97 ≤ c.toNat ∧ c.toNat ≤ 102 ∨ 65 ≤ c.toNat ∧ c.toNat ≤ 70 := by
  by_cases h₁ : 48 ≤ c.toNat ∧ c.toNat ≤ 57
  · exact .inl h₁
  by_cases h₂ : 97 ≤ c.toNat ∧ c.toNat ≤ 102
  · exact .inr (.inl h₂)
  by_cases h₃ : 65 ≤ c.toNat ∧ c.toNat ≤ 70
  · exact .inr (.inr h₃)
  · rw [isDigit, digitVal] at h
    rw [if_neg h₁, if_neg h₂, if_neg h₃] at h
    cases h

theorem isSpace_of_isDigit (h : isDigit base c = true) : isSpace c = false := by
  have hrange := range_of_isDigit h
  rw [isSpace, Bool.or_eq_false_iff, beq_eq_false_iff_ne, decide_eq_false_iff_not]
  omega

/-- A digit is not one of the characters that are no digits. -/
theorem ne_of_isDigit {x : Char} (h : isDigit base c = true) (hx : isDigit base x = false) : c ≠ x := by
  rintro rfl
  cases h.symm.trans hx

/-- The character ends a number. -/
def Ends (base : Nat) (t : Char) : Prop := isDigit base t = false ∧ t ≠ 'x' ∧ t ≠ 'X'

theorem skipSign_of_digit (h : isDigit base c = true) : skipSign (c :: cs) = (false, c :: cs) := by
  have hminus : c ≠ '-' := ne_of_isDigit h rfl
  have hplus : c ≠ '+' := ne_of_isDigit h rfl
  rw [skipSign, if_neg hminus, if_neg hplus]

theorem skipPrefix_of_ne {x : Char} (h : x ≠ 'x' ∧ x ≠ 'X') : skipPrefix base (c :: x :: cs) = c :: x :: cs := by
  rw [skipPrefix, if_neg]
  rintro ⟨-, -, hx⟩
  rcases hx with hx | hx
  · exact h.1 hx
  · exact h.2 hx

/-- White space and digits, up to a character that ends the number. -/
theorem number_of_digits {α : Type} {unset zero : α} {convert : Bool → Nat → α × Bool} {space digits : List Char}
    (hspace : ∀ c ∈ space, isSpace c = true) (hne : digits ≠ []) (hdigits : ∀ c ∈ digits, isDigit base c = true)
    (ht : Ends base t) : number base unset zero convert (ofList (space ++ (digits ++ t :: cs))) =
      ((convert false (value base digits)).1, ⟨t :: cs, false, !(convert false (value base digits)).2⟩) := by
  obtain ⟨d, ds, rfl⟩ := List.exists_cons_of_ne_nil hne
  have hd : isDigit base d = true := hdigits d List.mem_cons_self
  have hskip : (space ++ (d :: ds ++ t :: cs)).dropWhile isSpace = d :: (ds ++ t :: cs) := by
    rw [List.dropWhile_append_of_pos hspace, List.cons_append, List.dropWhile_cons_of_neg (by simp [isSpace_of_isDigit hd])]
  have hzerox : skipPrefix base (d :: (ds ++ t :: cs)) = d :: ds ++ t :: cs := by
    cases ds with
    | nil => exact skipPrefix_of_ne ht.2
    | cons x ds =>
      have hx : isDigit base x = true := hdigits x (List.mem_cons_of_mem _ List.mem_cons_self)
      exact skipPrefix_of_ne ⟨ne_of_isDigit hx rfl, ne_of_isDigit hx rfl⟩
  have hend : ¬ isDigit base t = true := by rw [ht.1]; exact Bool.false_ne_true
  rw [number, if_pos (good_ofList _)]
  dsimp only [ofList]
  rw [hskip]
  dsimp only
  rw [skipSign_of_digit hd]
  dsimp only
  rw [hzerox, List.takeWhile_append_of_pos hdigits, List.dropWhile_append_of_pos hdigits, List.takeWhile_cons_of_neg hend,
    List.dropWhile_cons_of_neg hend, List.append_nil]
  rfl

theorem hexULong_of_digits {space digits : List Char} (hspace : ∀ c ∈ space, isSpace c = true) (hne : digits ≠ [])
    (hdigits : ∀ c ∈ digits, isDigit 16 c = true) (ht : Ends 16 t) (hrange : value 16 digits < 2 ^ 64) :
    hexULong (ofList (space ++ (digits ++ t :: cs))) = (value 16 digits, ofList (t :: cs)) := by
  rw [hexULong, number_of_digits hspace hne hdigits ht, toULong, if_pos hrange]
  rfl

/-- A number that is out of range is stored as the largest one, and nothing more is extracted then. -/
theorem decInt_of_digits {space digits : List Char} (hspace : ∀ c ∈ space, isSpace c = true) (hne : digits ≠ [])
    (hdigits : ∀ c ∈ digits, isDigit 10 c = true) (ht : Ends 10 t) :
    decInt (ofList (space ++ (digits ++ t :: cs))) =
      if value 10 digits < 2 ^ 31 then ((value 10 digits : Int), ofList (t :: cs)) else (2 ^ 31 - 1, ⟨t :: cs, false, true⟩) := by
  rw [decInt, number_of_digits hspace hne hdigits ht, toInt, if_neg Bool.false_ne_true]
  split <;> rfl

/-! ### What an extraction leaves -/

variable {g h : IStream}

/-- A stream that is still good has been good, and no characters have come back. -/
def Later (f g : IStream) : Prop := g.good = true → f.good = true ∧ g.rest.length ≤ f.rest.length

/-- The same, with fewer characters. -/
def Shorter (f g : IStream) : Prop := g.good = true → f.good = true ∧ g.rest.length < f.rest.length

theorem Later.refl (f : IStream) : Later f f := fun hf => ⟨hf, Nat.le_refl _⟩

theorem Later.trans (hfg : Later f g) (hgh : Later g h) : Later f h := fun hh => by
  obtain ⟨hg, hle⟩ := hgh hh
  obtain ⟨hf, hle'⟩ := hfg hg
  exact ⟨hf, Nat.le_trans hle hle'⟩

theorem Shorter.trans (hfg : Shorter f g) (hgh : Later g h) : Shorter f h := fun hh => by
  obtain ⟨hg, hle⟩ := hgh hh
  obtain ⟨hf, hlt⟩ := hfg hg
  exact ⟨hf, Nat.lt_of_le_of_lt hle hlt⟩

theorem Shorter.later (hfg : Shorter f g) : Later f g := fun hg => by
  obtain ⟨hf, hlt⟩ := hfg hg
  exact ⟨hf, Nat.le_of_lt hlt⟩

theorem not_good_of_fail {rest : List Char} {eofbit : Bool} : ¬ good ⟨rest, eofbit, true⟩ = true := by
  rw [good_of_fail rfl]
  exact Bool.false_ne_true

/-- Extractions one after the other. -/
theorem bind_later {α β : Type} {x : Extraction α} {k : α → Extraction β} (hx : Later f (x f).2)
    (hk : ∀ a g, Later g (k a g).2) : Later f ((x >>= k) f).2 := hx.trans (hk (x f).1 (x f).2)

theorem bind_shorter {α β : Type} {x : Extraction α} {k : α → Extraction β} (hx : Shorter f (x f).2)
    (hk : ∀ a g, Later g (k a g).2) : Shorter f ((x >>= k) f).2 := hx.trans (hk (x f).1 (x f).2)

theorem unformatted_later {α : Type} {nothing : α} {extract : IStream → α × IStream}
    (hextract : (extract f).2.rest.length ≤ f.rest.length) : Later f (unformatted nothing extract f).2 := by
  intro hg
  rw [unformatted] at hg ⊢
  split at hg
  · rename_i hf
    rw [if_pos hf]
    exact ⟨hf, hextract⟩
  · exact (not_good_of_fail hg).elim

theorem get_later (f : IStream) : Later f (get f).2 := unformatted_later (by split <;> simp_all)

theorem peek_later (f : IStream) : Later f (peek f).2 := unformatted_later (by split <;> simp_all)

theorem ignore_later (f : IStream) : Later f (ignore f).2 := unformatted_later (by split <;> simp_all)

theorem getN_later (n : Nat) (f : IStream) : Later f (getN n f).2 := unformatted_later (by simp)

theorem getline_later (f : IStream) : Later f (getline f).2 := by
  have hdrop := (List.dropWhile_suffix (l := f.rest) (fun c => decide (c ≠ '\n'))).length_le
  refine unformatted_later ?_
  split <;> simp_all
  omega

theorem length_skipSign (cs : List Char) : (skipSign cs).2.length ≤ cs.length := by
  cases cs with
  | nil => exact Nat.le_refl _
  | cons c cs =>
    rw [skipSign]
    split
    · exact Nat.le_succ _
    · split
      · exact Nat.le_succ _
      · exact Nat.le_refl _

theorem length_skipPrefix (base : Nat) (cs : List Char) : (skipPrefix base cs).length ≤ cs.length := by
  rw [skipPrefix.eq_def]
  split
  · split <;> simp only [List.length_cons] <;> omega
  · exact Nat.le_refl _

/-- A number has at least one digit. -/
theorem number_shorter {α : Type} {unset zero : α} {convert : Bool → Nat → α × Bool} :
    Shorter f (number base unset zero convert f).2 := by
  intro hg
  rw [number] at hg ⊢
  by_cases hf : f.good = true
  · rw [if_pos hf] at hg ⊢
    have hdrop := (List.dropWhile_suffix (l := f.rest) isSpace).length_le
    cases hs : f.rest.dropWhile isSpace with
    | nil =>
      rw [hs] at hg
      exact (not_good_of_fail hg).elim
    | cons c cs =>
      rw [hs] at hg hdrop
      dsimp only at hg ⊢
      have hsign := length_skipSign (c :: cs)
      have hzerox := length_skipPrefix base (skipSign (c :: cs)).2
      generalize skipPrefix base (skipSign (c :: cs)).2 = ds at *
      have hsplit := congrArg List.length (List.takeWhile_append_dropWhile (p := isDigit base) (l := ds))
      rw [List.length_append] at hsplit
      cases hdigits : ds.takeWhile (isDigit base) with
      | nil =>
        rw [hdigits] at hg
        exact (not_good_of_fail hg).elim
      | cons d digits =>
        rw [hdigits, List.length_cons] at hsplit
        refine ⟨hf, ?_⟩
        omega
  · rw [if_neg hf] at hg
    exact (not_good_of_fail hg).elim

theorem hexULong_shorter (f : IStream) : Shorter f (hexULong f).2 := number_shorter

theorem hexULong_later (f : IStream) : Later f (hexULong f).2 := f.hexULong_shorter.later

theorem decInt_later (f : IStream) : Later f (decInt f).2 := number_shorter.later

end

end IStream
