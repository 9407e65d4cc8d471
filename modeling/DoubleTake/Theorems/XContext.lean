import DoubleTake.Lib.Except
import DoubleTake.Lib.Transition
import DoubleTake.XContext

/-! What a rollback restores. A save leaves the backup without any access, `rollback` opens it for reading, and where it goes on
    in `saveCurrent` it is closed again. `rollbackInHandler` reads the backup as it finds it. A record has to go back the way it came:
    `setcontext` does not put back all that the record of a handler holds, nor the return of a handler what `getcontext` stored. -/

namespace DoubleTake
namespace ContextState

open Protection Transition

variable {s s' : ContextState} {sp n len dst src : Nat} {mem backupMem : Mem}

/-! ### The copying of `__dt_rollback_ctx` -/

theorem movs_eq_copy (w : Nat) : movs w mem backupMem dst src n = mem.copy dst backupMem src (w * n) := by
  induction n generalizing mem dst src with
  | zero => rw [movs, Nat.mul_zero, Mem.copy_zero]
  | succ n ih => rw [movs, ih, Mem.copy_copy, Nat.mul_succ, Nat.add_comm]

/-- The first loop copies some of the bytes. -/
theorem movsbAlign_spec : ∃ k ≤ len,
    movsbAlign mem backupMem dst src len = (mem.copy dst backupMem src k, dst + k, src + k, len - k) := by
  induction len generalizing mem dst src with
  | zero => exact ⟨0, Nat.le_refl _, by rw [movsbAlign, Mem.copy_zero]; rfl⟩
  | succ len ih =>
    rw [movsbAlign]
    split
    · exact ⟨1, by omega, rfl⟩
    · have hrest : ∃ k ≤ len, movsbAlign (mem.copy dst backupMem src 1) backupMem (dst + 1) (src + 1) len = _ := ih
      obtain ⟨k, hk, heq⟩ := hrest
      refine ⟨1 + k, by omega, ?_⟩
      rw [heq, Mem.copy_copy, Nat.add_assoc, Nat.add_assoc, show len + 1 - (1 + k) = len - k by omega]

theorem copyStack_eq : copyStack mem backupMem dst src len = mem.copy dst backupMem src len := by
  have hfirst : ∃ k ≤ len, (if len < 8 ∨ dst % 8 = 0 then (mem, dst, src, len) else movsbAlign mem backupMem dst src len) =
      (mem.copy dst backupMem src k, dst + k, src + k, len - k) := by
    split
    · exact ⟨0, Nat.zero_le _, by rw [Mem.copy_zero]; rfl⟩
    · exact movsbAlign_spec
  obtain ⟨k, hk, heq⟩ := hfirst
  rw [copyStack, heq]
  dsimp only
  rw [movs_eq_copy, movs_eq_copy, Nat.one_mul, Mem.copy_copy, Nat.div_add_mod, Mem.copy_copy, Nat.add_sub_cancel' hk]

/-! ### The protection of the backup -/

/-- The stack is below the top, and a backup that `mprotect` refuses is as it was mapped. -/
structure Mapped (s : ContextState) : Prop where
  stack : s.stackSize ≤ s.privateTop
  top : s.privateTop < 2 ^ 63
  refused : s.backup % PageSize ≠ 0 → Protected PageSize s.pages s.backup s.stackSize PROT_READ_WRITE

theorem Mapped.setSize (hm : Mapped s) : Mapped (s.setSize sp) where
  stack := hm.stack
  top := hm.top
  refused := hm.refused

theorem Mapped.protect {prot : Prot} (hm : Mapped s) : Mapped (s.protect n prot) where
  stack := hm.stack
  top := hm.top
  refused h := by
    change Protected PageSize (mprotect PageSize s.pages s.backup n prot) s.backup s.stackSize PROT_READ_WRITE
    rw [mprotect_of_ne (show s.backup % PageSize ≠ 0 from h)]
    exact hm.refused h

theorem Mapped.of_eq (hm : Mapped s) (hctx : s'.toXContext = s.toXContext) (hpages : s'.pages = s.pages) : Mapped s' := by
  obtain ⟨x, mem, backupMem, pages, regs, inSaveCurrent⟩ := s'
  cases hctx
  cases hpages
  exact ⟨hm.stack, hm.top, hm.refused⟩

/-- What has been opened may be used. -/
theorem Mapped.accessible_protect {prot : Prot} {right : Prot → Bool} (hm : Mapped s) (hn : n ≤ s.stackSize) (hright : right prot = true)
    (hmapped : right PROT_READ_WRITE = true) :
    Accessible PageSize right (s.protect n prot).pages s.backup n := by
  by_cases h : s.backup % PageSize = 0
  · exact (protected_mprotect h).accessible hright
  · exact ((hm.protect.refused h).mono hn).accessible hmapped

/-! ### Saves -/

/-- The record and the memory of a save, whether `saveCurrent` made it, and whether `rollback` has gone back to it. -/
structure Saved where
  record : Mem
  mem : Mem
  current : Bool
  rolledBack : Bool

/-- The bytes that the save stored: what `getcontext` stores, or all that the kernel has put into the record of the handler. -/
def Saved.Stored (v : Saved) (i : Nat) : Prop :=
  if v.current then IsGeneral i ∨ IsEnvironment i else i < sizeofUcontext

/-- The bytes of the registers that are saved. -/
def Saved.Covers (v : Saved) (i : Nat) : Prop :=
  if v.current then IsGeneral i ∨ IsEnvironment i else IsGeneral i ∨ IsRax i ∨ IsScratch i ∨ IsFloat i

/-- What the registers held: the kernel leaves the floating-point state behind the pointer of its record. -/
def Saved.register (v : Saved) (i : Nat) : UInt8 :=
  if v.current = false ∧ IsFloat i then v.mem (getFpregs v.record + (i - 424)) else v.record i

/-- The protection that the backup of a save has been left with. -/
def Saved.prot (v : Saved) : Prot := if v.current = false ∧ v.rolledBack = true then PROT_READ else PROT_NONE

/-- The context and the backup hold a save. -/
structure Holds (s : ContextState) (v : Saved) : Prop where
  low : 8 ≤ getStackPointer v.record
  start : s.privateStart ≤ getStackPointer v.record
  top : s.privateStart + s.backupSize = s.privateTop
  size : s.backupSize ≤ s.stackSize
  bytes : ∀ i < s.backupSize, s.backupMem (s.backup + i) = v.mem (s.privateStart + i)
  context : ∀ i, v.Stored i → s.context i = v.record i
  current : s.inSaveCurrent = v.current

theorem Holds.of_eq {v : Saved} (h : Holds s v) (hctx : s'.toXContext = s.toXContext) (hbackup : s'.backupMem = s.backupMem)
    (hcurrent : s'.inSaveCurrent = s.inSaveCurrent) : Holds s' v := by
  obtain ⟨x, mem, backupMem, pages, regs, inSaveCurrent⟩ := s'
  cases hctx
  cases hbackup
  cases hcurrent
  exact ⟨h.low, h.start, h.top, h.size, h.bytes, h.context, h.current⟩

/-- Where the copy of the stack begins and ends, if its size is less than that of the stack. -/
theorem sizeBetween_spec {stackSize top : Nat} (hstack : stackSize ≤ top) (htop : top < 2 ^ 63) (hsp : sp < 2 ^ 64)
    (hsize : sizeBetween (PAGE_ALIGN_DOWN sp) top < stackSize) :
    8 ≤ sp ∧ PAGE_ALIGN_DOWN sp ≤ sp ∧ PAGE_ALIGN_DOWN sp + sizeBetween (PAGE_ALIGN_DOWN sp) top = top := by
  rw [sizeBetween, PAGE_ALIGN_DOWN, PAGE_ALIGN] at *
  omega

theorem getStackPointer_lt (uctx : Mem) : getStackPointer uctx < 2 ^ 64 := Mem.read_lt uctx 160 8

/-- The stack from the page below `sp` on is in the backup. -/
structure BackedUp (s : ContextState) (sp : Nat) (t : ContextState) : Prop where
  mapped : Mapped t
  area : t.backup = s.backup
  stackTop : t.privateTop = s.privateTop
  low : 8 ≤ sp
  start : t.privateStart ≤ sp
  top : t.privateStart + t.backupSize = t.privateTop
  size : t.backupSize ≤ t.stackSize
  bytes : ∀ i < t.backupSize, t.backupMem (t.backup + i) = s.mem (t.privateStart + i)
  regs : t.regs = s.regs

theorem copyToBackup_eq (hm : Mapped s) (hsize : s.backupSize ≤ s.stackSize) :
    s.copyToBackup = .ok { s.protect s.backupSize PROT_WRITE with
      backupMem := s.backupMem.copy s.backup s.mem s.privateStart s.backupSize } :=
  if_pos (hm.accessible_protect hsize rfl rfl)

theorem backUp_of_lt (hm : Mapped s) (hsp : sp < 2 ^ 64) (hsize : (s.setSize sp).backupSize < s.stackSize) :
    ∃ t, s.backUp sp = .ok t ∧ BackedUp s sp t := by
  obtain ⟨hlow, hstart, htop⟩ := sizeBetween_spec hm.stack hm.top hsp hsize
  refine ⟨_, (if_neg (not_not_intro hsize)).trans (copyToBackup_eq hm.setSize (Nat.le_of_lt hsize)), ?_⟩
  exact ⟨⟨hm.stack, hm.top, hm.setSize.protect.refused⟩, rfl, rfl, hlow, hstart, htop, Nat.le_of_lt hsize,
    fun i hi => Mem.copy_add hi, rfl⟩

theorem backUp_cases (hm : Mapped s) (hsp : sp < 2 ^ 64) :
    s.backUp sp = .error .exit ∨ ∃ t, s.backUp sp = .ok t ∧ BackedUp s sp t := by
  by_cases hsize : (s.setSize sp).backupSize < s.stackSize
  · exact .inr (backUp_of_lt hm hsp hsize)
  · exact .inl (if_pos hsize)

/-! ### Runs -/

/-- What holds between the calls; the second component is the most recent save. -/
structure Inv (r : ContextState × Option Saved) : Prop where
  mapped : Mapped r.1
  holds : ∀ v, r.2 = some v → Holds r.1 v
  closed : ∀ v, r.2 = some v → r.1.backup % PageSize = 0 →
    Protected PageSize r.1.pages r.1.backup r.1.backupSize v.prot

/-- The end of a save, with what it has stored in the record. -/
theorem BackedUp.inv {t : ContextState} {v : Saved} (h : BackedUp s (getStackPointer v.record) t) (hmem : v.mem = s.mem)
    (hback : v.rolledBack = false) {context : Mem} (hcontext : ∀ i, v.Stored i → context i = v.record i) :
    Inv ({ t with context := context, inSaveCurrent := v.current }.protect t.backupSize PROT_NONE, some v) where
  mapped := ⟨h.mapped.stack, h.mapped.top, h.mapped.protect.refused⟩
  holds w hw := by
    cases hw
    exact ⟨h.low, h.start, h.top, h.size, hmem ▸ h.bytes, hcontext, rfl⟩
  closed w hw hpage := by
    cases hw
    rw [Saved.prot, if_neg (by simp [hback])]
    exact protected_mprotect hpage

theorem save_cases (hm : Mapped s) (uctx : Mem) :
    s.save uctx = .error .exit ∨ ∃ t, s.save uctx = .ok t ∧ Inv (t, some ⟨uctx, s.mem, false, false⟩) := by
  rcases backUp_cases hm (getStackPointer_lt uctx) with hexit | ⟨t, ht, hback⟩
  · exact .inl (Except.bind_of_error hexit)
  · refine .inr ⟨_, Except.bind_of_ok ht, BackedUp.inv (v := ⟨uctx, s.mem, false, false⟩) hback rfl rfl fun i hi => ?_⟩
    have hlt : i < sizeofUcontext := hi
    rw [Mem.copy_of_mem (Nat.zero_le i) (by omega), Nat.zero_add, Nat.sub_zero]

theorem saveCurrent_cases (hm : Mapped s) :
    s.saveCurrent = .error .exit ∨ ∃ t, s.saveCurrent = .ok t ∧ Inv (t, some ⟨s.regs, s.mem, true, false⟩) := by
  rcases backUp_cases hm (getStackPointer_lt s.regs) with hexit | ⟨t, ht, hback⟩
  · exact .inl (Except.bind_of_error hexit)
  · refine .inr ⟨_, Except.bind_of_ok ht, ?_⟩
    rw [← hback.regs] at hback ⊢
    exact BackedUp.inv (v := ⟨t.regs, s.mem, true, false⟩) hback rfl rfl fun i hi => if_pos hi

theorem resume_eq (s : ContextState) (regs : Mem) : s.resume regs = { s with
    regs := regs
    pages := if s.inSaveCurrent then mprotect PageSize s.pages s.backup s.backupSize PROT_NONE else s.pages } := by
  rw [resume]
  dsimp only
  split <;> rfl

theorem Holds.goneBack {v : Saved} (h : Holds s v) : Holds s { v with rolledBack := true } :=
  ⟨h.low, h.start, h.top, h.size, h.bytes, h.context, h.current⟩

theorem Saved.prot_of_current {v : Saved} (h : v.current = true) : v.prot = PROT_NONE := if_neg (by simp [h])

/-- Where execution goes on in `saveCurrent`, it does not matter how the backup has been read. -/
theorem Holds.inv_resume {v : Saved} (hm : Mapped s) (h : Holds s v)
    (hopen : s.backup % PageSize = 0 → v.current = false → Protected PageSize s.pages s.backup s.backupSize v.prot)
    (regs : Mem) : Inv (s.resume regs, some v) := by
  rw [resume_eq, h.current]
  refine ⟨⟨hm.stack, hm.top, fun hpage => ?_⟩, fun w hw => ?_, fun w hw hpage => ?_⟩
  · dsimp only
    split
    · exact hm.protect.refused hpage
    · exact hm.refused hpage
  · cases hw
    exact h.of_eq rfl rfl h.current.symm
  · cases hw
    dsimp only
    split
    · rename_i hcurrent
      rw [Saved.prot_of_current hcurrent]
      exact protected_mprotect hpage
    · rename_i hcurrent
      exact hopen hpage (eq_false_of_ne_true hcurrent)

/-- The stack and the registers are those of the save. -/
structure Restored (v : Saved) (t : ContextState) : Prop where
  stack : t.mem.Agree v.mem (getStackPointer v.record) t.privateTop
  regs : ∀ i, v.Covers i → t.regs i = v.register i

/-- The copy of the backup. -/
theorem Holds.copy_eq {v : Saved} (h : Holds s v) (m : Mem) {a : Nat} (hlow : s.privateStart ≤ a) (hhigh : a < s.privateTop) :
    m.copy s.privateStart s.backupMem s.backup s.backupSize a = v.mem a := by
  have htop := h.top
  rw [Mem.copy_of_mem hlow (by omega), h.bytes _ (by omega), Nat.add_sub_cancel' hlow]

theorem Saved.stored_of_lt {v : Saved} {i : Nat} (hcurrent : v.current = false) (h : i < sizeofUcontext) : v.Stored i := by
  rw [Saved.Stored, if_neg (by simp [hcurrent])]
  exact h

theorem Saved.stored_of_general {v : Saved} {i : Nat} (h : IsGeneral i) : v.Stored i := by
  rw [Saved.Stored]
  split
  · exact .inl h
  · unfold sizeofUcontext
    omega

/-- The stack pointer is one of the general registers. -/
theorem Holds.getStackPointer_eq {v : Saved} (h : Holds s v) : getStackPointer s.context = getStackPointer v.record :=
  Mem.read_congr fun i _ _ => h.context i (Saved.stored_of_general (by omega))

/-! ### `setcontext` -/

/-- `setcontext` does not refuse the record. -/
def Saved.Accepted (v : Saved) : Prop := v.current = true ∨ v.record.read 450 2 = 0

theorem Holds.accepted_iff {v : Saved} (h : Holds s v) : (s.inSaveCurrent = true ∨ s.context.read 450 2 = 0) ↔ v.Accepted := by
  rw [h.current, Saved.Accepted]
  cases hcurrent : v.current with
  | true => exact iff_of_true (.inl rfl) (.inl rfl)
  | false =>
    have hread : s.context.read 450 2 = v.record.read 450 2 :=
      Mem.read_congr fun i _ _ => h.context i (Saved.stored_of_lt hcurrent (by unfold sizeofUcontext; omega))
    rw [hread]

/-- What a record of a handler needs so that `setcontext` puts the registers back: rax has been zero, and the registers that it does
    not load hold what they held. -/
structure Saved.Kept (v : Saved) (others : Mem) : Prop where
  rax : ∀ i, IsRax i → v.record i = 0
  others : ∀ i, IsScratch i ∨ IsFloat i → others i = v.register i

theorem Saved.register_of_not_float {v : Saved} {i : Nat} (h : ¬ IsFloat i) : v.register i = v.record i := if_neg (by simp [h])

theorem Holds.loadContext_iff {v : Saved} (h : Holds s v) (others : Mem) :
    (∀ i, v.Covers i → s.loadContext others i = v.register i) ↔ v.current = true ∨ v.Kept others := by
  cases hcurrent : v.current with
  | true =>
    refine iff_of_true (fun i hi => ?_) (.inl rfl)
    rw [Saved.Covers, if_pos hcurrent] at hi
    have hload : s.loadContext others i = s.context i := if_pos (hi.imp_right fun henv => ⟨h.current.trans hcurrent, henv⟩)
    have hstored : v.Stored i := by rwa [Saved.Stored, if_pos hcurrent]
    rw [hload, h.context i hstored, Saved.register, if_neg (by simp [hcurrent])]
  | false =>
    have hcover (i : Nat) : v.Covers i ↔ IsGeneral i ∨ IsRax i ∨ IsScratch i ∨ IsFloat i := by simp [Saved.Covers, hcurrent]
    have hload (i : Nat) : s.loadContext others i = if IsGeneral i then s.context i else if IsRax i then 0 else others i := by
      simp [loadContext, h.current, hcurrent]
    constructor
    · refine fun hregs => .inr ⟨fun i hi => ?_, fun i hi => ?_⟩
      · have hreg := hregs i ((hcover i).mpr (.inr (.inl hi)))
        rw [hload, if_neg (by omega), if_pos hi, Saved.register_of_not_float (by omega)] at hreg
        exact hreg.symm
      · have hreg := hregs i ((hcover i).mpr (.inr (.inr hi)))
        rwa [hload, if_neg (by omega), if_neg (by omega)] at hreg
    · rintro (hfalse | hkept) i hi
      · cases hfalse
      rw [hload]
      rcases (hcover i).mp hi with hgeneral | hrax | hother
      · rw [if_pos hgeneral, h.context i (Saved.stored_of_general hgeneral), Saved.register_of_not_float (by omega)]
      · rw [if_neg (by omega), if_pos hrax, Saved.register_of_not_float (by omega), hkept.rax i hrax]
      · rw [if_neg (by omega), if_neg (by omega), hkept.others i hother]

theorem setcontext_cases {v : Saved} (hm : Mapped s) (h : Holds s v)
    (hopen : s.backup % PageSize = 0 → v.current = false → Protected PageSize s.pages s.backup s.backupSize v.prot)
    (ctx : Nat) (others : Mem) :
    (¬ v.Accepted ∧ s.setcontext ctx others = .error .refused) ∨
      v.Accepted ∧ ∃ t, s.setcontext ctx others = .ok t ∧ Inv (t, some v) ∧ t.privateTop = s.privateTop ∧
        t.regs = s.loadContext others ∧ ∀ a, getStackPointer v.record ≤ a → t.mem a = s.mem a := by
  rw [setcontext]
  by_cases hacc : s.inSaveCurrent = true ∨ s.context.read 450 2 = 0
  · refine .inr ⟨h.accepted_iff.mp hacc, _, if_pos hacc, ?_⟩
    generalize hmem : (s.mem.write _ 8 ctx).write _ 8 _ = mem
    have hu : Mapped { s with mem := mem } := hm.of_eq rfl rfl
    refine ⟨Holds.inv_resume hu (h.of_eq rfl rfl rfl) hopen _, ?_⟩
    rw [resume_eq]
    refine ⟨rfl, rfl, fun a ha => ?_⟩
    have hlow := h.low
    have hsp : getStackPointer s.context - 8 + 8 ≤ a := by
      rw [h.getStackPointer_eq]
      omega
    have hbytes : mem a = s.mem a := by rw [← hmem, Mem.write_of_ge hsp, Mem.write_of_ge (by omega)]
    exact hbytes
  · exact .inl ⟨fun hv => hacc (h.accepted_iff.mpr hv), if_neg hacc⟩

/-- A backup that may be read is copied back. -/
theorem dt_rollback_ctx_cases {v : Saved} (hm : Mapped s) (h : Holds s v)
    (hread : Accessible PageSize Prot.read s.pages s.backup s.backupSize)
    (hopen : s.backup % PageSize = 0 → v.current = false → Protected PageSize s.pages s.backup s.backupSize v.prot)
    (ctx : Nat) (others : Mem) :
    (¬ v.Accepted ∧ s.__dt_rollback_ctx s.privateStart s.backup s.backupSize ctx others = .error .refused) ∨
      v.Accepted ∧ ∃ t, s.__dt_rollback_ctx s.privateStart s.backup s.backupSize ctx others = .ok t ∧ Inv (t, some v) ∧
        (Restored v t ↔ v.current = true ∨ v.Kept others) := by
  rw [__dt_rollback_ctx, copyStack_eq, if_pos hread]
  generalize hmem : Mem.copy _ s.privateStart s.backupMem s.backup s.backupSize = mem
  have hu : Mapped { s with mem := mem } := hm.of_eq rfl rfl
  have hhu : Holds { s with mem := mem } v := h.of_eq rfl rfl rfl
  rcases setcontext_cases hu hhu hopen ctx others with hrefused | ⟨hacc, t, ht, hinv, htop, hregs, hbytes⟩
  · exact .inl hrefused
  · refine .inr ⟨hacc, t, ht, hinv, fun hr => ?_, fun hload => ⟨fun a hlow hhigh => ?_, ?_⟩⟩
    · exact (hhu.loadContext_iff others).mp (hregs ▸ hr.regs)
    · rw [htop] at hhigh
      rw [hbytes a hlow]
      exact (congrFun hmem a).symm.trans (h.copy_eq _ (h.start.trans hlow) hhigh)
    · rw [hregs]
      exact (hhu.loadContext_iff others).mpr hload

theorem Saved.kept_goneBack {v : Saved} {others : Mem} : ({ v with rolledBack := true } : Saved).Kept others ↔ v.Kept others :=
  ⟨fun h => ⟨h.rax, h.others⟩, fun h => ⟨h.rax, h.others⟩⟩

theorem rollback_cases {v : Saved} (hm : Mapped s) (h : Holds s v) (ctx : Nat) (others : Mem) :
    (¬ v.Accepted ∧ s.rollback ctx others = .error .refused) ∨
      v.Accepted ∧ ∃ t, s.rollback ctx others = .ok t ∧ Inv (t, some { v with rolledBack := true }) ∧
        (Restored v t ↔ v.current = true ∨ v.Kept others) := by
  have hopen (hpage : s.backup % PageSize = 0) (hcurrent : v.current = false) :
      Protected PageSize (s.protect s.backupSize PROT_READ).pages s.backup s.backupSize
        ({ v with rolledBack := true } : Saved).prot := by
    rw [Saved.prot, if_pos ⟨hcurrent, rfl⟩]
    exact protected_mprotect hpage
  have hread : Mapped (s.protect s.backupSize PROT_READ) := hm.protect
  rcases dt_rollback_ctx_cases hread (h.goneBack.of_eq rfl rfl rfl) (hm.accessible_protect h.size rfl rfl) hopen ctx others with
    hrefused | ⟨hacc, t, ht, hinv, hiff⟩
  · exact .inl hrefused
  · rw [Saved.kept_goneBack] at hiff
    refine .inr ⟨hacc, t, ht, hinv, fun hr => hiff.mp ⟨hr.stack, hr.regs⟩, fun hload => ?_⟩
    have hr := hiff.mpr hload
    exact ⟨hr.stack, hr.regs⟩

/-! ### The return of a handler -/

/-- What the return needs: the saved part of the stack and, for a record of a handler, the floating-point state behind it. -/
def Saved.Needs (v : Saved) (top a : Nat) : Prop :=
  getStackPointer v.record ≤ a ∧ a < top ∨ v.current = false ∧ getFpregs v.record ≤ a ∧ a < getFpregs v.record + 512

/-- What the return needs is not overwritten by the record, unless by the same bytes, and is copied back or has not changed. -/
def Spares (s : ContextState) (v : Saved) (kctx : Nat) : Prop :=
  ∀ a, v.Needs s.privateTop a →
    if kctx ≤ a ∧ a < kctx + sizeofUcontext then s.context (a - kctx) = v.mem a
    else (s.privateStart ≤ a ∧ a < s.privateTop) ∨ s.mem a = v.mem a

/-- The memory at the end of `rollbackInHandler`. -/
def memInHandler (s : ContextState) (kctx : Nat) : Mem :=
  (s.mem.copy s.privateStart s.backupMem s.backup s.backupSize).copy kctx s.context 0 sizeofUcontext

theorem memInHandler_record {kctx i : Nat} (hi : i < sizeofUcontext) : s.memInHandler kctx (kctx + i) = s.context i := by
  rw [memInHandler, Mem.copy_add hi, Nat.zero_add]

theorem Holds.spares_iff {v : Saved} (h : Holds s v) (kctx : Nat) :
    s.Spares v kctx ↔ ∀ a, v.Needs s.privateTop a → s.memInHandler kctx a = v.mem a := by
  refine forall_congr' fun a => imp_congr_right fun _ => ?_
  split
  · rename_i ha
    rw [memInHandler, Mem.copy_of_mem ha.1 ha.2, Nat.zero_add]
  · rename_i ha
    have htop := h.top
    rw [memInHandler, Mem.copy_of_not_mem (by omega)]
    by_cases hcopied : s.privateStart ≤ a ∧ a < s.privateTop
    · exact iff_of_true (.inl hcopied) (h.copy_eq _ hcopied.1 hcopied.2)
    · rw [Mem.copy_of_not_mem (by omega)]
      exact or_iff_right hcopied

theorem Holds.loadRecord_iff {v : Saved} (h : Holds s v) (kctx : Nat) (others : Mem) :
    (∀ i, v.Covers i → { s with mem := s.memInHandler kctx }.loadRecord kctx others i = v.register i) ↔
      (v.current = true → ∀ i, IsEnvironment i → others i = v.record i) ∧
      (v.current = false → ∀ i, IsFloat i →
        s.memInHandler kctx (getFpregs v.record + (i - 424)) = v.mem (getFpregs v.record + (i - 424))) := by
  have hgeneral {i : Nat} (hi : i < sizeofUcontext) (hfloat : ¬ IsFloat i) (hstored : v.Stored i) :
      { s with mem := s.memInHandler kctx }.loadRecord kctx others i = v.register i := by
    rw [loadRecord, if_neg hfloat, Saved.register_of_not_float hfloat]
    exact (memInHandler_record hi).trans (h.context i hstored)
  cases hcurrent : v.current with
  | true =>
    have hfloat (i : Nat) (hi : IsEnvironment i) : { s with mem := s.memInHandler kctx }.loadRecord kctx others i = others i := by
      rw [loadRecord, if_pos (by omega), if_pos (h.current.trans hcurrent)]
    have hregister (i : Nat) : v.register i = v.record i := if_neg (by simp [hcurrent])
    refine Iff.intro (fun hregs => ⟨fun _ i hi => ?_, by rintro ⟨⟩⟩) fun hothers i hi => ?_
    · have hreg := hregs i (by rw [Saved.Covers, if_pos hcurrent]; exact .inr hi)
      rwa [hfloat i hi, hregister] at hreg
    · rw [Saved.Covers, if_pos hcurrent] at hi
      rcases hi with hi | hi
      · exact hgeneral (by unfold sizeofUcontext; omega) (by omega) (Saved.stored_of_general hi)
      · rw [hfloat i hi, hregister, hothers.1 rfl i hi]
  | false =>
    have hfpregs : getFpregs (fun i => s.memInHandler kctx (kctx + i)) = getFpregs v.record :=
      Mem.read_congr fun i _ hi => (memInHandler_record (by unfold sizeofUcontext; omega)).trans
        (h.context i (Saved.stored_of_lt hcurrent (by unfold sizeofUcontext; omega)))
    have hfloat (i : Nat) (hi : IsFloat i) : { s with mem := s.memInHandler kctx }.loadRecord kctx others i =
        s.memInHandler kctx (getFpregs v.record + (i - 424)) := by
      rw [loadRecord, if_pos hi, if_neg (by simp [h.current, hcurrent])]
      exact congrArg (fun p => s.memInHandler kctx (p + (i - 424))) hfpregs
    have hregister (i : Nat) (hi : IsFloat i) : v.register i = v.mem (getFpregs v.record + (i - 424)) := if_pos ⟨hcurrent, hi⟩
    refine Iff.intro (fun hregs => ⟨by rintro ⟨⟩, fun _ i hi => ?_⟩) fun hfloats i hi => ?_
    · have hreg := hregs i (by rw [Saved.Covers, if_neg (by simp [hcurrent])]; exact .inr (.inr (.inr hi)))
      rwa [hfloat i hi, hregister i hi] at hreg
    · by_cases hf : IsFloat i
      · rw [hfloat i hf, hregister i hf, hfloats.2 rfl i hf]
      · have hlt : i < sizeofUcontext := by
          simp only [Saved.Covers, hcurrent, Bool.false_eq_true, if_false] at hi
          unfold sizeofUcontext
          omega
        exact hgeneral hlt hf (Saved.stored_of_lt hcurrent hlt)

/-- The handler finds the backup open if `mprotect` refuses it, if nothing is in it, or if `rollback` has gone back to a save that
    `saveCurrent` has not made. -/
theorem Inv.accessible_iff {v : Saved} (h : Inv (s, some v)) : Accessible PageSize Prot.read s.pages s.backup s.backupSize ↔
    s.backup % PageSize ≠ 0 ∨ s.backupSize = 0 ∨ v.current = false ∧ v.rolledBack = true := by
  by_cases hpage : s.backup % PageSize = 0
  · rw [(h.closed v rfl hpage).accessible_iff, Saved.prot]
    split
    · rename_i hopen
      exact iff_of_true (.inr rfl) (.inr (.inr hopen))
    · rename_i hclosed
      simp [hpage, hclosed, PROT_NONE]
  · exact iff_of_true (((h.mapped.refused hpage).mono (h.holds v rfl).size).accessible rfl) (.inl hpage)

theorem rollbackInHandler_cases {v : Saved} (h : Inv (s, some v)) (kctx : Nat) (others : Mem)
    (hread : Accessible PageSize Prot.read s.pages s.backup s.backupSize) :
    (getCodeSegment s.context ≠ USER_CS ∧ s.rollbackInHandler kctx others = .error .refused) ∨
      getCodeSegment s.context = USER_CS ∧ ∃ t, s.rollbackInHandler kctx others = .ok t ∧ Inv (t, some v) ∧
        (Restored v t ↔ s.Spares v kctx ∧ (v.current = true → ∀ i, IsEnvironment i → others i = v.record i)) := by
  have hh : Holds s v := h.holds v rfl
  have hsegment : getCodeSegment (fun i => s.memInHandler kctx (kctx + i)) = getCodeSegment s.context :=
    Mem.read_congr fun i _ hi => memInHandler_record (by unfold sizeofUcontext; omega)
  rw [rollbackInHandler, if_pos hread]
  change (_ ∧ sigreturn { s with mem := s.memInHandler kctx } kctx others = _) ∨
    _ ∧ ∃ t, sigreturn { s with mem := s.memInHandler kctx } kctx others = _ ∧ _
  by_cases hcs : getCodeSegment s.context = USER_CS
  · refine .inr ⟨hcs, _, if_pos (hsegment.trans hcs), ?_⟩
    have hu : Mapped { s with mem := s.memInHandler kctx } := h.mapped.of_eq rfl rfl
    refine ⟨Holds.inv_resume hu (hh.of_eq rfl rfl rfl) (fun hpage _ => h.closed v rfl hpage) _, ?_⟩
    rw [resume_eq, hh.spares_iff]
    constructor
    · intro hr
      obtain ⟨hothers, hfloats⟩ := (hh.loadRecord_iff kctx others).mp hr.regs
      refine ⟨fun a ha => ?_, hothers⟩
      rcases ha with ⟨hlow, hhigh⟩ | ⟨hcurrent, hlow, hhigh⟩
      · exact hr.stack a hlow hhigh
      · have hfloat := hfloats hcurrent (424 + (a - getFpregs v.record)) (by omega)
        rwa [Nat.add_sub_cancel_left, Nat.add_sub_cancel' hlow] at hfloat
    · rintro ⟨hneeds, hothers⟩
      refine ⟨fun a hlow hhigh => hneeds a (.inl ⟨hlow, hhigh⟩), (hh.loadRecord_iff kctx others).mpr ⟨hothers, ?_⟩⟩
      exact fun hcurrent i hi => hneeds _ (.inr ⟨hcurrent, by omega, by omega⟩)
  · exact .inl ⟨hcs, if_neg fun hcs' => hcs (hsegment.symm.trans hcs')⟩

/-! ### Runs of calls -/

def Call.isRollback : Call → Bool
  | .rollback .. | .rollbackInHandler .. => true
  | .changed .. | .save _ | .saveCurrent => false

/-- The most recent save after a call. -/
def savedAfter (r : ContextState × Option Saved) : Call → Option Saved
  | .save uctx => some ⟨uctx, r.1.mem, false, false⟩
  | .saveCurrent => some ⟨r.1.regs, r.1.mem, true, false⟩
  | .rollback .. => r.2.map fun v => { v with rolledBack := true }
  | .changed .. | .rollbackInHandler .. => r.2

/-- As the thread sets it up: the backup is mapped for reading and writing, and the stack is below its top. -/
structure Initial (r : ContextState × Option Saved) : Prop where
  stack : r.1.stackSize ≤ r.1.privateTop
  top : r.1.privateTop < 2 ^ 63
  mapped : Protected PageSize r.1.pages r.1.backup r.1.stackSize PROT_READ_WRITE
  unsaved : r.2 = none

/-- Calls in any order, with any changes between them, the first of which is a save. -/
def contextSystem : System (ContextState × Option Saved) Call where
  init := Initial
  step r c r' := (r.2 = none → c.isRollback = false) ∧ r.1.exec c = .ok r'.1 ∧ r'.2 = savedAfter r c

theorem Initial.inv {r : ContextState × Option Saved} (h : Initial r) : Inv r where
  mapped := ⟨h.stack, h.top, fun _ => h.mapped⟩
  holds v hv := by cases h.unsaved.symm.trans hv
  closed v hv := by cases h.unsaved.symm.trans hv

theorem Inv.step {r r' : ContextState × Option Saved} {c : Call} (h : Inv r) (hs : contextSystem.step r c r') : Inv r' := by
  obtain ⟨s, saved⟩ := r
  obtain ⟨t, saved'⟩ := r'
  obtain ⟨hfirst, hexec, rfl⟩ := hs
  cases c with
  | changed mem regs =>
    cases hexec
    exact ⟨h.mapped.of_eq rfl rfl, fun v hv => (h.holds v hv).of_eq rfl rfl rfl, h.closed⟩
  | save uctx =>
    rcases save_cases h.mapped uctx with hexit | ⟨u, hu, hinv⟩
    · cases hexit.symm.trans hexec
    · cases hu.symm.trans hexec
      exact hinv
  | saveCurrent =>
    rcases saveCurrent_cases h.mapped with hexit | ⟨u, hu, hinv⟩
    · cases hexit.symm.trans hexec
    · cases hu.symm.trans hexec
      exact hinv
  | rollback ctx others =>
    cases saved with
    | none => cases hfirst rfl
    | some v =>
      rcases rollback_cases h.mapped (h.holds v rfl) ctx others with ⟨-, hrefused⟩ | ⟨-, u, hu, hinv, -⟩
      · cases hrefused.symm.trans hexec
      · cases hu.symm.trans hexec
        exact hinv
  | rollbackInHandler kctx others =>
    cases saved with
    | none => cases hfirst rfl
    | some v =>
      by_cases hread : Accessible PageSize Prot.read s.pages s.backup s.backupSize
      · rcases rollbackInHandler_cases h kctx others hread with ⟨-, hrefused⟩ | ⟨-, u, hu, hinv, -⟩
        · cases hrefused.symm.trans hexec
        · cases hu.symm.trans hexec
          exact hinv
      · cases (if_neg hread : s.rollbackInHandler kctx others = .error .fault).symm.trans hexec

theorem inv_of_reachable {r : ContextState × Option Saved} (h : Reachable contextSystem r) : Inv r :=
  h.invariant (fun _ hinit => Initial.inv hinit) fun _ _ _ hinv hs => Inv.step hinv hs

/-- The call does not touch the backup in a way that its protection does not allow, and if it is a rollback, it restores the most
    recent save. -/
structure Correct (r : ContextState × Option Saved) (c : Call) : Prop where
  allowed : r.1.exec c ≠ .error .fault
  restored : c.isRollback = true → ∀ v, r.2 = some v → ∃ t, r.1.exec c = .ok t ∧ Restored v t

theorem correct_of_save {r : ContextState × Option Saved} (h : Inv r) {c : Call} (hc : c.isRollback = false) : Correct r c := by
  refine ⟨fun hfault => ?_, fun hroll => by cases hc.symm.trans hroll⟩
  cases c with
  | changed => cases hfault
  | save uctx =>
    rcases save_cases h.mapped uctx with hexit | ⟨t, ht, -⟩
    · cases hexit.symm.trans hfault
    · cases ht.symm.trans hfault
  | saveCurrent =>
    rcases saveCurrent_cases h.mapped with hexit | ⟨t, ht, -⟩
    · cases hexit.symm.trans hfault
    · cases ht.symm.trans hfault
  | rollback => cases hc
  | rollbackInHandler => cases hc

theorem correct_rollback_iff {v : Saved} (h : Inv (s, some v)) (ctx : Nat) (others : Mem) :
    Correct (s, some v) (.rollback ctx others) ↔ v.current = true ∨ v.Accepted ∧ v.Kept others := by
  rcases rollback_cases h.mapped (h.holds v rfl) ctx others with ⟨hacc, hrefused⟩ | ⟨hacc, t, ht, -, hiff⟩
  · refine iff_of_false (fun hc => ?_) fun hload => hacc (hload.elim .inl And.left)
    obtain ⟨u, hu, -⟩ := hc.restored rfl v rfl
    cases hrefused.symm.trans hu
  · constructor
    · intro hc
      obtain ⟨u, hu, hrestored⟩ := hc.restored rfl v rfl
      cases ht.symm.trans hu
      exact (hiff.mp hrestored).imp_right fun hkept => ⟨hacc, hkept⟩
    · intro hload
      refine ⟨fun hfault => (by cases ht.symm.trans hfault), fun _ w hw => ?_⟩
      cases hw
      exact ⟨t, ht, hiff.mpr (hload.imp_right And.right)⟩

theorem correct_rollbackInHandler_iff {v : Saved} (h : Inv (s, some v)) (kctx : Nat) (others : Mem) :
    Correct (s, some v) (.rollbackInHandler kctx others) ↔ Accessible PageSize Prot.read s.pages s.backup s.backupSize ∧
      getCodeSegment s.context = USER_CS ∧ s.Spares v kctx ∧ (v.current = true → ∀ i, IsEnvironment i → others i = v.record i) := by
  constructor
  · intro hc
    have hread : Accessible PageSize Prot.read s.pages s.backup s.backupSize :=
      Decidable.byContradiction fun hread => hc.allowed (if_neg hread)
    obtain ⟨u, hu, hrestored⟩ := hc.restored rfl v rfl
    rcases rollbackInHandler_cases h kctx others hread with ⟨-, hrefused⟩ | ⟨hcs, t, ht, -, hiff⟩
    · cases hrefused.symm.trans hu
    · cases ht.symm.trans hu
      exact ⟨hread, hcs, hiff.mp hrestored⟩
  · rintro ⟨hread, hcs, hspares⟩
    rcases rollbackInHandler_cases h kctx others hread with ⟨hne, -⟩ | ⟨-, t, ht, -, hiff⟩
    · exact absurd hcs hne
    · refine ⟨fun hfault => (by cases ht.symm.trans hfault), fun _ w hw => ?_⟩
      cases hw
      exact ⟨t, ht, hiff.mpr hspares⟩

/-- What a rollback needs. `rollback`: a context of `getcontext`, or one of a handler that holds nothing else than what `setcontext`
    leaves in the registers. `rollbackInHandler`: a backup that is open, a record with the code segment of the thread, room for the
    record, and the environment that `getcontext` has stored. -/
def Restores (s : ContextState) (v : Saved) : Call → Prop
  | .changed .. | .save _ | .saveCurrent => True
  | .rollback _ others => v.current = true ∨ v.Accepted ∧ v.Kept others
  | .rollbackInHandler kctx others =>
    (s.backup % PageSize ≠ 0 ∨ s.backupSize = 0 ∨ v.current = false ∧ v.rolledBack = true) ∧
      getCodeSegment s.context = USER_CS ∧ s.Spares v kctx ∧ (v.current = true → ∀ i, IsEnvironment i → others i = v.record i)

def interrupted : Mem := Mem.write (fun _ => 0) 160 8 0x6FF0

def registered : ContextState where
  context := fun _ => 0
  backup := 0x10000
  privateStart := 0
  privateTop := 0x7000
  stackSize := 0x4000
  backupSize := 0
  mem := fun _ => 0
  backupMem := fun _ => 0
  pages := fun _ => PROT_READ_WRITE
  regs := interrupted
  inSaveCurrent := false

/-- What a save stores there, in a handler or not. -/
def stopped (current : Bool) : Saved := ⟨interrupted, registered.mem, current, false⟩

theorem registered_initial : Initial (registered, none) := ⟨by decide, by decide, fun _ _ => rfl, rfl⟩

theorem getStackPointer_interrupted : getStackPointer interrupted = 0x6FF0 := Mem.read_write_of_lt _ _ (by decide)

theorem registered_backUp : ∃ t, registered.backUp (getStackPointer interrupted) = .ok t ∧
    BackedUp registered (getStackPointer interrupted) t ∧ t.backup = 0x10000 ∧ 0 < t.backupSize := by
  have hsize : (registered.setSize (getStackPointer interrupted)).backupSize < registered.stackSize := by
    rw [getStackPointer_interrupted]
    decide
  obtain ⟨t, ht, hback⟩ := backUp_of_lt registered_initial.inv.mapped (getStackPointer_lt interrupted) hsize
  refine ⟨t, ht, hback, hback.area, Nat.pos_of_ne_zero fun hzero => ?_⟩
  have hstart := hback.start
  have htop : t.privateStart + t.backupSize = 0x7000 := hback.top.trans hback.stackTop
  rw [getStackPointer_interrupted] at hstart
  omega

/-- After a save in a handler, the backup is closed. -/
theorem registered_save : ∃ t, registered.save interrupted = .ok t ∧ t.backup = 0x10000 ∧ 0 < t.backupSize := by
  obtain ⟨t, ht, -, hbackup, hsize⟩ := registered_backUp
  exact ⟨_, Except.bind_of_ok ht, hbackup, hsize⟩

theorem registered_saveCurrent : ∃ t, registered.saveCurrent = .ok t := by
  obtain ⟨t, ht, -⟩ := registered_backUp
  exact ⟨_, Except.bind_of_ok ht⟩

end ContextState
end DoubleTake
