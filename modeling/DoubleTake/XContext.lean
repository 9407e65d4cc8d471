import DoubleTake.Defines
import DoubleTake.Lib.Bytes
import DoubleTake.Lib.Protection

/-! The context of a thread (`xcontext.cpp`): a save copies the stack and the registers, and a rollback puts them back. The backup
    is a mapping of its own, so it is kept apart from the rest of the memory, where the stack is. Registers are written as a
    `ucontext_t` has them; `getcontext` and `setcontext` are those of x86-64, where not all of them are stored and loaded. -/

namespace DoubleTake

open Protection

/-- `sizeof(ucontext_t)`. -/
abbrev sizeofUcontext : Nat := 968

/-- `gregs[REG_SP]`, `gregs[REG_RBP]` and `gregs[REG_RIP]` of a `ucontext_t`, the code segment and `fpregs`. -/
def getStackPointer (uctx : Mem) : Nat := uctx.read 160 8
def getBasePointer (uctx : Mem) : Nat := uctx.read 120 8
def getInstructionPointer (uctx : Mem) : Nat := uctx.read 168 8
def getCodeSegment (uctx : Mem) : Nat := uctx.read 184 2
def getFpregs (uctx : Mem) : Nat := uctx.read 224 8

/-- The bytes of the general registers but rax, r10 and r11, and of the signal mask. -/
abbrev IsGeneral (i : Nat) : Prop := 40 ≤ i ∧ i < 56 ∨ 72 ≤ i ∧ i < 144 ∨ 152 ≤ i ∧ i < 176 ∨ 296 ≤ i ∧ i < 304

/-- `gregs[REG_RAX]`. -/
abbrev IsRax (i : Nat) : Prop := 144 ≤ i ∧ i < 152

/-- r10, r11 and the flags. -/
abbrev IsScratch (i : Nat) : Prop := 56 ≤ i ∧ i < 72 ∨ 176 ≤ i ∧ i < 184

/-- The floating-point and the SSE state, and the environment of it that `getcontext` stores, with MXCSR as its last word. -/
abbrev IsFloat (i : Nat) : Prop := 424 ≤ i ∧ i < 936
abbrev IsEnvironment (i : Nat) : Prop := 424 ≤ i ∧ i < 452

/-- The members. -/
structure XContext where
  context : Mem
  backup : Nat
  privateStart : Nat
  privateTop : Nat
  stackSize : Nat
  backupSize : Nat

/-- An `XContext` with what its calls work on: the memory, the bytes of the backup with the protection of the pages, and the
    registers that execution goes on with. `inSaveCurrent` says that `context` goes on in `saveCurrent`, behind `getcontext`; the
    record of a handler has its floating-point state behind `fpregs`, in another layout. -/
structure ContextState extends XContext where
  mem : Mem
  backupMem : Mem
  pages : Pages
  regs : Mem
  inSaveCurrent : Bool

/-- `REQUIRE` ends the process, an access is not allowed, or the processor refuses what a record holds. -/
inductive ContextStop where
  | exit
  | fault
  | refused
  deriving DecidableEq, Repr

namespace ContextState

def PAGE_ALIGN (x : Nat) : Nat := (x + 4095) % 2 ^ 64 / 4096 * 4096
def PAGE_ALIGN_DOWN (x : Nat) : Nat := (2 ^ 64 - 4096 + PAGE_ALIGN x) % 2 ^ 64

/-- The size that `_privateTop - stackBottom` has as a `size_t`. -/
def sizeBetween (stackBottom privateTop : Nat) : Nat := (privateTop + 2 ^ 64 - stackBottom) % 2 ^ 64

/-- `mprotect` of so many bytes of the backup. -/
def protect (s : ContextState) (size : Nat) (prot : Prot) : ContextState :=
  { s with pages := mprotect PageSize s.pages s.backup size prot }

/-- Where the part of the stack begins that is copied, and its size. -/
def setSize (s : ContextState) (sp : Nat) : ContextState :=
  let stackBottom := PAGE_ALIGN_DOWN sp
  { s with privateStart := stackBottom, backupSize := sizeBetween stackBottom s.privateTop }

def copyToBackup (s : ContextState) : Except ContextStop ContextState :=
  let s := s.protect s.backupSize PROT_WRITE
  if Accessible PageSize Prot.write s.pages s.backup s.backupSize then
    .ok { s with backupMem := s.backupMem.copy s.backup s.mem s.privateStart s.backupSize }
  else .error .fault

/-- What `save` and `saveCurrent` begin with, up to the copy of the stack. -/
def backUp (s : ContextState) (sp : Nat) : Except ContextStop ContextState :=
  let s := s.setSize sp
  if ¬ s.backupSize < s.stackSize then .error .exit else s.copyToBackup

def save (s : ContextState) (uctx : Mem) : Except ContextStop ContextState := do
  let s ← s.backUp (getStackPointer uctx)
  let s := s.protect s.backupSize PROT_NONE
  return { s with context := s.context.copy 0 uctx 0 sizeofUcontext, inSaveCurrent := false }

/-- `getcontext`: what it does not store of the registers stays as the record has it. -/
def getcontext (context regs : Mem) : Mem := fun i => if IsGeneral i ∨ IsEnvironment i then regs i else context i

/-- `saveCurrent`. The stack pointer that it reads is also the one that `getcontext` stores. -/
def saveCurrent (s : ContextState) : Except ContextStop ContextState := do
  let s ← s.backUp (getStackPointer s.regs)
  let s := { s with context := getcontext s.context s.regs, inSaveCurrent := true }
  return s.protect s.backupSize PROT_NONE

/-- Where execution goes on in `saveCurrent`, the backup is protected once more. -/
def resume (s : ContextState) (regs : Mem) : ContextState :=
  let s := { s with regs := regs }
  if s.inSaveCurrent then s.protect s.backupSize PROT_NONE else s

/-- `movsb` and `movsq`, repeated: units of `w` bytes from the backup. -/
def movs (w : Nat) (mem backupMem : Mem) (dst src : Nat) : Nat → Mem
  | 0 => mem
  | n + 1 => movs w (mem.copy dst backupMem src w) backupMem (dst + w) (src + w) n

/-- The first loop: bytes up to an address that is a multiple of 8, with the addresses and the length that remain. -/
def movsbAlign (mem backupMem : Mem) (dst src : Nat) : Nat → Mem × Nat × Nat × Nat
  | 0 => (mem, dst, src, 0)
  | len + 1 =>
    let mem := mem.copy dst backupMem src 1
    if (dst + 1) % 8 = 0 then (mem, dst + 1, src + 1, len) else movsbAlign mem backupMem (dst + 1) (src + 1) len

/-- The copying of `__dt_rollback_ctx`. -/
def copyStack (mem backupMem : Mem) (dst src len : Nat) : Mem :=
  let (mem, dst, src, len) := if len < 8 ∨ dst % 8 = 0 then (mem, dst, src, len) else movsbAlign mem backupMem dst src len
  let mem := movs 8 mem backupMem dst src (len / 8)
  movs 1 mem backupMem (dst + 8 * (len / 8)) (src + 8 * (len / 8)) (len % 8)

/-- The registers after `setcontext`, if the others then hold `others`. It finds the environment in a record that `getcontext`
    has made; behind the `fpregs` of a handler it has another layout. -/
def loadContext (s : ContextState) (others : Mem) : Mem := fun i =>
  if IsGeneral i ∨ s.inSaveCurrent ∧ IsEnvironment i then s.context i else if IsRax i then 0 else others i

/-- `setcontext(ctx)`, on the stack that has been switched to: `ctx` is kept there behind the return address, which the instruction
    pointer replaces in the end. MXCSR is loaded from the record, and its upper half has to be zero. -/
def setcontext (s : ContextState) (ctx : Nat) (others : Mem) : Except ContextStop ContextState :=
  let sp := getStackPointer s.context
  if s.inSaveCurrent ∨ s.context.read 450 2 = 0 then
    let mem := (s.mem.write (sp - 16) 8 ctx).write (sp - 8) 8 (getInstructionPointer s.context)
    .ok (resume { s with mem := mem } (s.loadContext others))
  else .error .refused

/-- `__dt_rollback_ctx`. The base pointer is pushed first. -/
def __dt_rollback_ctx (s : ContextState) (dst src len ctx : Nat) (others : Mem) : Except ContextStop ContextState :=
  let pushed := s.mem.write (getStackPointer s.regs - 8) 8 (getBasePointer s.regs)
  if Accessible PageSize Prot.read s.pages src len then
    setcontext { s with mem := copyStack pushed s.backupMem dst src len } ctx others
  else .error .fault

def rollback (s : ContextState) (ctx : Nat) (others : Mem) : Except ContextStop ContextState :=
  let s := s.protect s.backupSize PROT_READ
  s.__dt_rollback_ctx s.privateStart s.backup s.backupSize ctx others

/-- The segment that user code runs in. -/
abbrev USER_CS : Nat := 0x33

/-- The registers of the record at `kctx`. A floating-point state in the layout of `getcontext` is loaded as `others`. -/
def loadRecord (s : ContextState) (kctx : Nat) (others : Mem) : Mem := fun i =>
  if IsFloat i then
    if s.inSaveCurrent then others i else s.mem (getFpregs (fun i => s.mem (kctx + i)) + (i - 424))
  else s.mem (kctx + i)

/-- The return of the handler to the record at `kctx`. -/
def sigreturn (s : ContextState) (kctx : Nat) (others : Mem) : Except ContextStop ContextState :=
  if getCodeSegment (fun i => s.mem (kctx + i)) = USER_CS then .ok (s.resume (s.loadRecord kctx others))
  else .error .refused

/-- `rollbackInHandler`, and the return of the handler. -/
def rollbackInHandler (s : ContextState) (kctx : Nat) (others : Mem) : Except ContextStop ContextState :=
  if Accessible PageSize Prot.read s.pages s.backup s.backupSize then
    let mem := s.mem.copy s.privateStart s.backupMem s.backup s.backupSize
    sigreturn { s with mem := mem.copy kctx s.context 0 sizeofUcontext } kctx others
  else .error .fault

/-- The calls; between them memory and registers change. A rollback says where the record is that it goes on with, and what
    registers hold that it leaves as they are. -/
inductive Call where
  | changed (mem regs : Mem)
  | save (uctx : Mem)
  | saveCurrent
  | rollback (ctx : Nat) (others : Mem)
  | rollbackInHandler (kctx : Nat) (others : Mem)

def exec (s : ContextState) : Call → Except ContextStop ContextState
  | .changed mem regs => .ok { s with mem := mem, regs := regs }
  | .save uctx => s.save uctx
  | .saveCurrent => s.saveCurrent
  | .rollback ctx others => s.rollback ctx others
  | .rollbackInHandler kctx others => s.rollbackInHandler kctx others

end ContextState

end DoubleTake
