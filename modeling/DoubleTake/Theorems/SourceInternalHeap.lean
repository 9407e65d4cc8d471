import DoubleTake.SourceInternalHeap
import Mathlib.Algebra.GroupWithZero.Nat

/-! Where the blocks of the internal heap are. The mapping begins with the data of the heap itself, so the last pages of the
    heap are behind `INTERNAL_HEAP_END`, where `isInvalidSyncVar` takes no variable for a real one. -/

namespace DoubleTake
namespace SourceInternalHeap

open XSync (INTERNAL_HEAP_BASE INTERNAL_HEAP_END)
open HashMap (INTERNAL_HEAP_SIZE)

variable {h h' : SourceInternalHeap} {sz metasize : Nat} {sizes : List Nat} {blocks : List (Nat × Nat)}

/-- The size in whole pages. -/
def pages (sz : Nat) : Nat := PageSize * ((sz + PageSize - 1) / PageSize)

theorem le_pages (sz : Nat) : sz ≤ pages sz := by
  simp only [pages, PageSize]
  omega

theorem pages_le {n : Nat} (h : sz ≤ n) (hn : n % PageSize = 0) : pages sz ≤ n := by
  simp only [pages, PageSize] at hn ⊢
  omega

theorem pages_mod (sz : Nat) : pages sz % PageSize = 0 := Nat.mul_mod_right _ _

/-- What `malloc` adds to the position; only a size of almost `2 ^ 64` bytes is not rounded up. -/
theorem malloc_spec {p : Nat} (hm : h.malloc sz = some (p, h')) :
    p = h.position ∧ h'.position = h.position + pages sz ∧ h'.magic = h.magic ∨ p = h.position ∧ 2 ^ 64 < sz + PageSize := by
  rw [malloc] at hm
  split at hm
  · cases hm
  · dsimp only at hm
    split at hm
    · cases hm
    · cases hm
      by_cases hsz : sz + PageSize ≤ 2 ^ 64
      · refine .inl ⟨rfl, ?_, rfl⟩
        dsimp only
        rw [Nat.mod_eq_of_lt (by simp only [PageSize] at hsz ⊢; omega), pages]
      · exact .inr ⟨rfl, by omega⟩

theorem mallocs_cons (hm : h.mallocs (sz :: sizes) = some (blocks, h')) :
    ∃ p h₁ rest, h.malloc sz = some (p, h₁) ∧ h₁.mallocs sizes = some (rest, h') ∧ blocks = (p, sz) :: rest := by
  obtain ⟨⟨p, h₁⟩, h₁', hm⟩ := Option.bind_eq_some_iff.mp hm
  obtain ⟨⟨rest, h₂⟩, h₂', hm⟩ := Option.bind_eq_some_iff.mp hm
  cases hm
  exact ⟨p, h₁, rest, h₁', h₂', rfl⟩

/-! ### Where the blocks are -/

/-- The bytes of a block. -/
def Within (b : Nat × Nat) (a : Nat) : Prop := b.1 ≤ a ∧ a < b.1 + b.2

/-- The bytes of the blocks are between `INTERNAL_HEAP_BASE` and `INTERNAL_HEAP_END`, so that each is taken for a real variable. -/
def Recognised (blocks : List (Nat × Nat)) : Prop :=
  ∀ b ∈ blocks, ∀ a, Within b a → INTERNAL_HEAP_BASE ≤ a ∧ a < INTERNAL_HEAP_END ∧ SyncVars.isInvalidSyncVar a = false

/-- Real variables in the blocks are recognised, and the blocks are in the mapping and apart from each other. -/
structure Served (h : SourceInternalHeap) (blocks : List (Nat × Nat)) : Prop where
  recognised : Recognised blocks
  mapped : ∀ b ∈ blocks, h.mapStart ≤ b.1 ∧ b.1 + b.2 ≤ h.mapStart + h.mapSize
  apart : blocks.Pairwise fun b c => b.1 + b.2 ≤ c.1 ∨ c.1 + c.2 ≤ b.1

theorem recognised_iff {b : Nat × Nat} (hlow : INTERNAL_HEAP_BASE ≤ b.1) :
    (∀ a, Within b a → INTERNAL_HEAP_BASE ≤ a ∧ a < INTERNAL_HEAP_END ∧ SyncVars.isInvalidSyncVar a = false) ↔
      b.2 = 0 ∨ b.1 + b.2 ≤ INTERNAL_HEAP_END := by
  constructor
  · intro h
    by_cases hz : b.2 = 0
    · exact .inl hz
    · have := (h (b.1 + b.2 - 1) ⟨by omega, by omega⟩).2.1
      omega
  · intro h a ha
    obtain ⟨h₁, h₂⟩ := ha
    refine ⟨by omega, by omega, ?_⟩
    rw [SyncVars.isInvalidSyncVar, Bool.or_eq_false_iff, decide_eq_false_iff_not, decide_eq_false_iff_not]
    omega

/-- From a position on, with what the sizes take in whole pages up to the end, the blocks follow one another. -/
theorem mallocs_consecutive (hm : h.mallocs sizes = some (blocks, h')) {limit : Nat} (hlimit : limit ≤ 2 ^ 63)
    (hsum : h.position + (sizes.map pages).sum ≤ limit) :
    (∀ b ∈ blocks, h.position ≤ b.1 ∧ b.1 + b.2 ≤ limit) ∧ blocks.Pairwise fun b c => b.1 + b.2 ≤ c.1 := by
  induction sizes generalizing h blocks with
  | nil =>
    cases hm
    exact ⟨fun b hb => (List.not_mem_nil hb).elim, .nil⟩
  | cons sz sizes ih =>
    obtain ⟨p, h₁, rest, hp, hrest, rfl⟩ := mallocs_cons hm
    rw [List.map_cons, List.sum_cons] at hsum
    have hle := le_pages sz
    rcases malloc_spec hp with ⟨rfl, hpos, -⟩ | ⟨-, hwrap⟩
    · obtain ⟨hin, hpair⟩ := ih hrest (by omega)
      refine ⟨fun b hb => ?_, List.pairwise_cons.mpr ⟨fun b hb => ?_, hpair⟩⟩
      · rcases List.mem_cons.mp hb with rfl | hb
        · exact ⟨Nat.le_refl _, by dsimp only; omega⟩
        · obtain ⟨h₁, h₂⟩ := hin b hb
          exact ⟨by omega, h₂⟩
      · obtain ⟨h₁, -⟩ := hin b hb
        dsimp only
        omega
    · simp only [PageSize] at hwrap
      omega

/-- Only where the sizes take no more than is left up to `INTERNAL_HEAP_END` all blocks are recognised. -/
theorem sum_le_of_recognised (hm : h.mallocs sizes = some (blocks, h')) (hlow : INTERNAL_HEAP_BASE ≤ h.position)
    (hmod : h.position % PageSize = 0) (hle : h.position ≤ INTERNAL_HEAP_END) (hrec : Recognised blocks) :
    h.position + (sizes.map pages).sum ≤ INTERNAL_HEAP_END := by
  induction sizes generalizing h blocks with
  | nil => exact hle
  | cons sz sizes ih =>
    obtain ⟨p, h₁, rest, hp, hrest, rfl⟩ := mallocs_cons hm
    have hfirst := hrec _ List.mem_cons_self
    have hpage : sz = 0 ∨ h.position + pages sz ≤ INTERNAL_HEAP_END := by
      rcases malloc_spec hp with ⟨rfl, -⟩ | ⟨rfl, -⟩ <;>
      · refine ((recognised_iff hlow).mp hfirst).imp id fun hend => ?_
        have hpages : pages sz ≤ INTERNAL_HEAP_END - h.position := by
          refine pages_le (by omega) ?_
          simp only [PageSize, INTERNAL_HEAP_END, INTERNAL_HEAP_BASE, INTERNAL_HEAP_SIZE] at hmod ⊢
          omega
        omega
    have hpage : h.position + pages sz ≤ INTERNAL_HEAP_END := by
      rcases hpage with rfl | hpage
      · exact hle
      · exact hpage
    rcases malloc_spec hp with ⟨-, hpos, -⟩ | ⟨-, hwrap⟩
    · have hmod' : h₁.position % PageSize = 0 := by
        rw [hpos, Nat.add_mod, hmod, pages_mod]
        rfl
      have := ih hrest (by omega) hmod' (by omega) fun b hb => hrec b (List.mem_cons_of_mem _ hb)
      rw [List.map_cons, List.sum_cons]
      omega
    · have := le_pages sz
      simp only [PageSize, INTERNAL_HEAP_END, INTERNAL_HEAP_BASE, INTERNAL_HEAP_SIZE] at hwrap hpage
      omega

/-- The blocks of a run are recognised exactly if in whole pages they leave as much of `INTERNAL_HEAP_SIZE` as the data of the
    heap takes. -/
theorem served_iff (hmod : metasize % PageSize = 0) (hmeta : metasize < 2 ^ 31)
    (hm : (perheapInitialized metasize).mallocs sizes = some (blocks, h')) :
    Served (perheapInitialized metasize) blocks ↔ (sizes.map pages).sum + metasize ≤ INTERNAL_HEAP_SIZE := by
  have hpos : (perheapInitialized metasize).position = INTERNAL_HEAP_BASE + metasize := rfl
  constructor
  · intro hs
    have := sum_le_of_recognised hm (by omega) ?_ ?_ hs.recognised
    · simp only [INTERNAL_HEAP_END] at this
      omega
    · simp only [PageSize, hpos, INTERNAL_HEAP_BASE] at hmod ⊢
      omega
    · simp only [hpos, INTERNAL_HEAP_END, INTERNAL_HEAP_SIZE]
      omega
  · intro hsum
    obtain ⟨hin, hpair⟩ := mallocs_consecutive hm (show INTERNAL_HEAP_END ≤ 2 ^ 63 by decide) (by
      rw [hpos, INTERNAL_HEAP_END]
      omega)
    refine ⟨fun b hb => ?_, fun b hb => ?_, hpair.imp .inl⟩
    · obtain ⟨h₁, h₂⟩ := hin b hb
      exact (recognised_iff (by omega)).mpr (.inr h₂)
    · obtain ⟨h₁, h₂⟩ := hin b hb
      simp only [perheapInitialized, initialized, INTERNAL_HEAP_END] at h₁ h₂ ⊢
      omega

theorem served_two : Served (perheapInitialized 4096) [(INTERNAL_HEAP_BASE + 4096, 10), (INTERNAL_HEAP_BASE + 8192, 5000)] :=
  (@served_iff _ 4096 [10, 5000] _ (by decide) (by decide) rfl).mpr (by decide)

/-- The page before the end of the mapping is behind `INTERNAL_HEAP_END`. -/
theorem last_page_not_recognised :
    ¬ ∀ metasize sizes blocks h, metasize % PageSize = 0 → 0 < metasize → metasize < 2 ^ 31 →
      (perheapInitialized metasize).mallocs sizes = some (blocks, h) → Served (perheapInitialized metasize) blocks := by
  intro h
  have hs := h 4096 [INTERNAL_HEAP_SIZE] [(INTERNAL_HEAP_BASE + 4096, INTERNAL_HEAP_SIZE)] _ (by decide) (by decide) (by decide) rfl
  have := hs.recognised _ List.mem_cons_self INTERNAL_HEAP_END ⟨by decide, by decide⟩
  exact absurd this.2.1 (Nat.lt_irrefl _)

end SourceInternalHeap

end DoubleTake
