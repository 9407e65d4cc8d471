import Mathlib.Data.Nat.Notation
import Mathlib.Tactic.Ring

/-! Byte-addressed memory: little-endian reads and writes of a given width, block copies, and the frame
    lemmas that say which bytes they leave alone. -/

/-- A memory holds one byte at every address. -/
abbrev Mem := Nat → UInt8

namespace Mem

/-- The little-endian value of the `n` bytes at `a`. -/
def read (m : Mem) (a : Nat) : Nat → Nat
  | 0 => 0
  | n + 1 => (m a).toNat + 256 * read m (a + 1) n

/-- The low `n` bytes of `v` stored at `a`, least significant first. -/
def write (m : Mem) (a n v : Nat) : Mem := fun b =>
  if a ≤ b ∧ b < a + n then UInt8.ofNat (v / 256 ^ (b - a)) else m b

/-- One byte stored at `a`. -/
def set (m : Mem) (a : Nat) (v : UInt8) : Mem := fun b => if b = a then v else m b

/-- `memcpy`: the `n` bytes of `src` at `b` copied into `m` at `a`. -/
def copy (m : Mem) (a : Nat) (src : Mem) (b n : Nat) : Mem := fun c =>
  if a ≤ c ∧ c < a + n then src (b + (c - a)) else m c

/-- Two memories hold the same bytes from `lo` up to `hi`. -/
def Agree (m m' : Mem) (lo hi : Nat) : Prop := ∀ a, lo ≤ a → a < hi → m a = m' a

section
variable {m m' m'' : Mem} {a b n v lo hi : Nat}

theorem Agree.refl (m : Mem) (lo hi : Nat) : Agree m m lo hi := fun _ _ _ => rfl

theorem Agree.symm (h : Agree m m' lo hi) : Agree m' m lo hi := fun a h₁ h₂ => (h a h₁ h₂).symm

theorem Agree.trans (h : Agree m m' lo hi) (h' : Agree m' m'' lo hi) : Agree m m'' lo hi :=
  fun a h₁ h₂ => (h a h₁ h₂).trans (h' a h₁ h₂)

theorem Agree.mono {lo' hi' : Nat} (h : Agree m m' lo hi) (hlo : lo ≤ lo') (hhi : hi' ≤ hi) :
    Agree m m' lo' hi' :=
  fun a h₁ h₂ => h a (by omega) (by omega)

theorem write_of_lt (h : b < a) : write m a n v b = m b := by
  simp [write]
  omega

theorem write_of_ge (h : a + n ≤ b) : write m a n v b = m b := by
  simp [write]
  omega

theorem write_of_mem (h₁ : a ≤ b) (h₂ : b < a + n) : write m a n v b = UInt8.ofNat (v / 256 ^ (b - a)) := by
  simp [write, h₁, h₂]

theorem write_of_not_mem (h : b < a ∨ a + n ≤ b) : write m a n v b = m b := if_neg (by omega)

theorem agree_write_left (h : hi ≤ a) : Agree (write m a n v) m lo hi :=
  fun _ _ h₂ => write_of_lt (by omega)

@[simp] theorem set_self (v : UInt8) : set m a v a = v := by simp [set]

theorem set_of_ne {v : UInt8} (h : b ≠ a) : set m a v b = m b := by simp [set, h]

section Copy
variable {src : Mem} {c k : Nat}

theorem copy_of_mem (h₁ : a ≤ c) (h₂ : c < a + n) : copy m a src b n c = src (b + (c - a)) := if_pos ⟨h₁, h₂⟩

theorem copy_add {i : Nat} (h : i < n) : copy m a src b n (a + i) = src (b + i) := by
  rw [copy_of_mem (Nat.le_add_right _ _) (Nat.add_lt_add_left h _), Nat.add_sub_cancel_left]

theorem copy_of_not_mem (h : c < a ∨ a + n ≤ c) : copy m a src b n c = m c := if_neg (by omega)

theorem copy_zero : copy m a src b 0 = m := by
  funext c
  exact copy_of_not_mem (by omega)

/-- Two copies, the second of which goes on where the first ends. -/
theorem copy_copy : copy (copy m a src b n) (a + n) src (b + n) k = copy m a src b (n + k) := by
  funext c
  by_cases hsecond : a + n ≤ c ∧ c < a + n + k
  · rw [copy_of_mem hsecond.1 hsecond.2, copy_of_mem (by omega) (by omega), show b + n + (c - (a + n)) = b + (c - a) by omega]
  · rw [copy_of_not_mem (by omega)]
    by_cases hfirst : a ≤ c ∧ c < a + n
    · rw [copy_of_mem hfirst.1 hfirst.2, copy_of_mem hfirst.1 (by omega)]
    · rw [copy_of_not_mem (by omega), copy_of_not_mem (by omega)]

end Copy

/-- Bytes stored one after the other leave alone what they are not stored to. -/
theorem foldl_set_of_not_mem {l : List (Nat × UInt8)} (h : b ∉ l.map Prod.fst) : l.foldl (fun m s => m.set s.1 s.2) m b = m b := by
  induction l generalizing m with
  | nil => rfl
  | cons s l ih =>
    obtain ⟨hs, hl⟩ := not_or.mp (mt List.mem_cons.mpr h)
    rw [List.foldl_cons, ih hl, set_of_ne hs]

/-- The same value stored at each of the addresses. -/
theorem foldl_set_same {l : List (Nat × UInt8)} {v : UInt8} (hv : ∀ s ∈ l, s.2 = v) :
    l.foldl (fun m s => m.set s.1 s.2) m b = if b ∈ l.map Prod.fst then v else m b := by
  induction l generalizing m with
  | nil => rfl
  | cons s l ih =>
    rw [List.foldl_cons, ih fun s hs => hv s (List.mem_cons_of_mem _ hs), List.map_cons]
    by_cases hl : b ∈ l.map Prod.fst
    · rw [if_pos hl, if_pos (List.mem_cons_of_mem _ hl)]
    · rw [if_neg hl]
      by_cases hs : b = s.1
      · rw [if_pos (List.mem_cons.mpr (.inl hs)), hs, set_self, hv s List.mem_cons_self]
      · rw [if_neg (mt List.mem_cons.mp (not_or.mpr ⟨hs, hl⟩)), set_of_ne hs]

theorem foldl_set_const {l : List Nat} (v : UInt8) : l.foldl (fun m a => m.set a v) m b = if b ∈ l then v else m b := by
  have hpairs : ∀ s ∈ l.map fun a => (a, v), s.2 = v := fun s hs => by
    obtain ⟨a, -, rfl⟩ := List.mem_map.mp hs
    rfl
  have h := foldl_set_same (m := m) (b := b) hpairs
  rwa [List.foldl_map, List.map_map, Function.comp_def, List.map_id'] at h

theorem read_congr (h : Agree m m' a (a + n)) : read m a n = read m' a n := by
  induction n generalizing a with
  | zero => rfl
  | succ n ih =>
    have hhead := h a (by omega) (by omega)
    have htail := ih (a := a + 1) (h.mono (by omega) (by omega))
    simp only [read, hhead, htail]

theorem read_lt (m : Mem) (a n : Nat) : read m a n < 256 ^ n := by
  induction n generalizing a with
  | zero => simp [read]
  | succ n ih =>
    have hbyte := (m a).toNat_lt
    have hrest := ih (a + 1)
    simp only [read, pow_succ]
    omega

/-- A read takes the low bytes and the high bytes one after the other. -/
theorem read_add (m : Mem) (a n k : Nat) : read m a (n + k) = read m a n + 256 ^ n * read m (a + n) k := by
  induction n generalizing a with
  | zero => simp [read]
  | succ n ih =>
    rw [show n + 1 + k = n + k + 1 by omega, read, read, ih, show a + (n + 1) = a + 1 + n by omega]
    ring

/-- A read determines the bytes it covers. -/
theorem agree_of_read (h : read m a n = read m' a n) : Agree m m' a (a + n) := by
  induction n generalizing a with
  | zero => intro b h₁ h₂; omega
  | succ n ih =>
    simp only [read] at h
    have hm := (m a).toNat_lt
    have hm' := (m' a).toNat_lt
    have htail := ih (a := a + 1) (by omega)
    intro b h₁ h₂
    by_cases hb : b = a
    · subst hb
      exact UInt8.toNat_inj.mp (by omega)
    · exact htail b (by omega) (by omega)

theorem read_write (m : Mem) (a n v : Nat) : read (write m a n v) a n = v % 256 ^ n := by
  induction n generalizing m a v with
  | zero => simp [read, Nat.mod_one]
  | succ n ih =>
    -- The tail of the written bytes is a write of `v / 256`.
    have htail : read (write m a (n + 1) v) (a + 1) n = read (write m (a + 1) n (v / 256)) (a + 1) n := by
      apply read_congr
      intro b h₁ h₂
      rw [write_of_mem (by omega) (by omega), write_of_mem h₁ h₂, Nat.div_div_eq_div_mul, ← pow_succ']
      congr 3
      omega
    have hhead : (write m a (n + 1) v a).toNat = v % 256 := by
      rw [write_of_mem (by omega) (by omega)]
      simp
    rw [read, htail, ih, hhead, pow_succ', Nat.mod_mul]

theorem read_write_of_lt (m : Mem) (a : Nat) (h : v < 256 ^ n) : read (write m a n v) a n = v := by
  rw [read_write, Nat.mod_eq_of_lt h]

/-- A value that differs in its lowest byte only. -/
theorem write_eq_set (h : v / 256 = read m (a + 1) n) : write m a (n + 1) v = set m a (UInt8.ofNat v) := by
  have hsame : read (write m (a + 1) n (v / 256)) (a + 1) n = read m (a + 1) n := by
    rw [h, read_write_of_lt m (a + 1) (read_lt ..)]
  funext b
  by_cases hb : b = a
  · rw [hb, write_of_mem le_rfl (by omega), set_self, Nat.sub_self, pow_zero, Nat.div_one]
  rw [set_of_ne hb]
  by_cases hin : a < b ∧ b < a + 1 + n
  · rw [← agree_of_read hsame b hin.1 hin.2, write_of_mem hin.1.le (by omega), write_of_mem hin.1 hin.2,
      Nat.div_div_eq_div_mul, ← pow_succ', show b - (a + 1) + 1 = b - a by omega]
  · rcases Nat.lt_or_ge b a with hlt | hge
    · exact write_of_lt hlt
    · exact write_of_ge (by omega)

end

end Mem
