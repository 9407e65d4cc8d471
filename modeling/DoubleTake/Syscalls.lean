import Mathlib.Logic.Function.Basic

/-! System calls that an epoch records and a rollback replays (`recordentries.hh`, `sysrecord.hh`, `fops.hh`,
    `syscalls.hh`). What the operating system answers is given with each call. -/

namespace DoubleTake

/-- Why a call does not return to the program. -/
inductive Stop where
  /-- `retrieveEntry` finds no entry. -/
  | emptyLog
  /-- `retrieveEntry` finds an entry of another call. -/
  | kindMismatch
  /-- Another assertion fails. -/
  | assertion
  /-- A null or uninitialized pointer is dereferenced. -/
  | crash
  /-- There is no room for another entry. -/
  | abort
  /-- The call ends the epoch. -/
  | epochEnd
  deriving DecidableEq, Repr

structure TimeVal where
  sec : Int
  usec : Int
  deriving DecidableEq, Repr

structure TimeZone where
  minuteswest : Int
  dsttime : Int
  deriving DecidableEq, Repr

structure Tms where
  utime : Int
  stime : Int
  cutime : Int
  cstime : Int
  deriving DecidableEq, Repr

/-! ### The log -/

inductive RecordSyscall where
  | fileOpen
  | fileClose
  | fileDup
  | dirOpen
  | dirClose
  | mmap
  | munmap
  | time
  | gettimeofday
  | times
  deriving DecidableEq, Repr

/-- An entry of the log: which call it is for, and the fields that the calls keep in it. -/
structure SyscallEntry where
  syscall : RecordSyscall
  fd : Int
  ret : Int
  dir : Nat
  addr : Nat
  length : Nat
  time : Int
  tvalue : TimeVal
  tzone : TimeZone
  buf : Tms

/-- `RecordEntries`: a pool that is filled from the start in each epoch. A slot keeps what an earlier epoch has left
    there until it is written. -/
structure RecordEntries where
  entries : Nat → SyscallEntry
  cur : Nat
  iter : Nat

abbrev MAX_SYSCALL_ENTRIES : Nat := 0x100000

namespace RecordEntries

/-- `allocEntry`, and what the caller writes into the entry. -/
def alloc (l : RecordEntries) (sc : RecordSyscall) (fill : SyscallEntry → SyscallEntry) : Except Stop RecordEntries :=
  if l.cur < MAX_SYSCALL_ENTRIES then
    .ok { l with entries := Function.update l.entries l.cur (fill { l.entries l.cur with syscall := sc }), cur := l.cur + 1 }
  else .error .abort

def retrieveEntry (l : RecordEntries) (sc : RecordSyscall) : Except Stop (SyscallEntry × RecordEntries) :=
  if l.iter < l.cur then
    if (l.entries l.iter).syscall = sc then .ok (l.entries l.iter, { l with iter := l.iter + 1 })
    else .error .kindMismatch
  else .error .emptyLog

def prepareRollback (l : RecordEntries) : RecordEntries := { l with iter := 0 }

end RecordEntries

/-! ### Files -/

/-- What `fops` keeps of a file. The stream is null for a plain descriptor. -/
structure FileInfo where
  fd : Int
  origStream : Nat
  deriving DecidableEq, Repr

/-- What `fops` keeps of a directory. -/
structure DirInfo where
  dir : Nat
  deriving DecidableEq, Repr

/-- The log of the thread and the maps of open files and directories. A map takes new entries at its end and finds the
    first one with the key; nothing is erased within an epoch. The key of a directory is the stream itself. -/
structure Sys where
  log : RecordEntries
  filesMap : List (Int × FileInfo)
  dirsMap : List DirInfo

namespace Sys

def isNormalFile (s : Sys) (fd : Int) : Bool := (s.filesMap.lookup fd).isSome

def findDir (s : Sys) (dir : Nat) : Option DirInfo := s.dirsMap.find? (·.dir == dir)

/-- `allocEntry` on the log. -/
def record (s : Sys) (sc : RecordSyscall) (fill : SyscallEntry → SyscallEntry) : Except Stop Sys := do
  let log ← s.log.alloc sc fill
  .ok { s with log := log }

/-- `retrieveEntry` on the log. -/
def retrieve (s : Sys) (sc : RecordSyscall) : Except Stop (SyscallEntry × Sys) := do
  let (e, log) ← s.log.retrieveEntry sc
  .ok (e, { s with log := log })

def saveFd (s : Sys) (fd : Int) (file : Nat) : Except Stop Sys := do
  let s ← s.record .fileOpen fun e => { e with fd := fd }
  if fd ≠ -1 then .ok { s with filesMap := s.filesMap ++ [(fd, ⟨fd, file⟩)] } else .ok s

def getFdAtOpen (s : Sys) : Except Stop (Int × Sys) := do
  let (e, s) ← s.retrieve .fileOpen
  if e.fd ≠ -1 ∧ (s.filesMap.lookup e.fd).isNone then .error .assertion else .ok (e.fd, s)

/-- `saveDupFd`: the entry of the new descriptor is a copy of that of the old one, with its stream. -/
def saveDupFd (s : Sys) (oldfd newfd : Int) : Except Stop Sys := do
  let s ← s.record .fileDup fun e => { e with fd := newfd }
  if newfd ≠ -1 then
    match s.filesMap.lookup oldfd with
    | some thisFile => .ok { s with filesMap := s.filesMap ++ [(newfd, { thisFile with fd := newfd })] }
    | none => .error .assertion
  else .ok s

def getDupFd (s : Sys) : Except Stop (Int × Sys) := do
  let (e, s) ← s.retrieve .fileDup
  .ok (e.fd, s)

def saveDir (s : Sys) (dir : Nat) : Except Stop Sys := do
  let s ← s.record .dirOpen fun e => { e with dir := dir }
  if dir ≠ 0 then .ok { s with dirsMap := s.dirsMap ++ [⟨dir⟩] } else .ok s

/-- `getDirAtOpen`; `ptr` is where `malloc` puts the stream in the replay. -/
def getDirAtOpen (s : Sys) (ptr : Nat) : Except Stop (Nat × Sys) := do
  let (e, s) ← s.retrieve .dirOpen
  if e.dir ≠ 0 then
    match s.findDir e.dir with
    | some dinfo => if e.dir = dinfo.dir ∧ e.dir = ptr then .ok (e.dir, s) else .error .assertion
    | none => .error .assertion
  else .ok (e.dir, s)

/-- `closeDir`: without an entry in the map a null pointer is dereferenced. -/
def closeDir (s : Sys) (dir : Nat) : Except Stop (Int × Sys) :=
  if dir = 0 then .error .crash
  else
    match s.findDir dir with
    | none => .error .crash
    | some thisDir => do
      let s ← s.record .dirClose fun e => { e with dir := dir }
      .ok (if dir ≠ thisDir.dir then -1 else 0, s)

def getCloseDir (s : Sys) (dir : Nat) : Except Stop (Int × Sys) :=
  match s.findDir dir with
  | none => .error .crash
  | some thisDir => do
    let (_, s) ← s.retrieve .dirClose
    .ok (if dir = 0 ∨ dir ≠ thisDir.dir then -1 else 0, s)

/-- `getFopen`; `ptr` is where `malloc` puts the stream in the replay. -/
def getFopen (s : Sys) (ptr : Nat) : Except Stop (Nat × Sys) := do
  let (fd, s) ← s.getFdAtOpen
  if fd = -1 then .ok (0, s)
  else
    match s.filesMap.lookup fd with
    | some finfo => if ptr = finfo.origStream ∧ ptr ≠ 0 then .ok (ptr, s) else .error .assertion
    | none => .error .assertion

/-- `closeFile`: the three standard descriptors are left alone; the others are closed when the epoch ends. -/
def closeFile (s : Sys) (fd : Int) (fp : Nat) : Except Stop (Int × Sys) :=
  if fd = 0 ∨ fd = 1 ∨ fd = 2 then .ok (0, s)
  else
    match s.filesMap.lookup fd with
    | none => .error .crash
    | some thisFile => do
      let ret := if fp ≠ thisFile.origStream then -1 else 0
      let s ← s.record .fileClose fun e => { e with fd := fd, ret := ret }
      .ok (ret, s)

/-- `getClose` and `getCloseFile`. -/
def getClose (s : Sys) : Except Stop (Int × Sys) := do
  let (e, s) ← s.retrieve .fileClose
  .ok (e.ret, s)

end Sys

/-! ### Calls -/

/-- A call with what the operating system answers (`ret`, and `value` for what it stores through a pointer). A pointer
    argument is `none` when it is null, else what it points to before the call. -/
inductive Call where
  | open (ret : Int)
  | close (fd : Int)
  | dup (oldfd ret : Int)
  | dup2 (oldfd newfd ret : Int)
  /-- `fcntl` with `F_DUPFD`. -/
  | fcntl (ret : Int)
  | opendir (ret : Nat)
  | closedir (dir : Nat)
  | fopen (ret : Nat) (fileno : Int)
  | fopen64 (ret : Nat) (fileno : Int)
  | fclose (fp : Nat) (fileno : Int)
  | mmap (ret : Nat)
  | munmap (start length : Nat)
  | time (t : Option Int) (ret : Int)
  | gettimeofday (tv : Option TimeVal) (tz : Option TimeZone) (ret : Int) (tvalue : TimeVal) (tzone : TimeZone)
  | times (buf : Option Tms) (ret : Int) (value : Tms)
  deriving DecidableEq, Repr

/-- What the program sees: the return value, and what its pointers point to after the call. -/
structure Answer where
  ret : Int
  t : Option Int := none
  tv : Option TimeVal := none
  tz : Option TimeZone := none
  buf : Option Tms := none
  deriving DecidableEq, Repr

namespace Sys

/-- A call outside of a rollback. -/
def recordCall (s : Sys) : Call → Except Stop (Answer × Sys)
  | .open ret => do
    let s ← s.saveFd ret 0
    .ok ({ ret := ret }, s)
  | .close fd =>
    if s.isNormalFile fd then do
      let (ret, s) ← s.closeFile fd 0
      .ok ({ ret := ret }, s)
    else .error .epochEnd
  | .dup oldfd ret =>
    if s.isNormalFile oldfd then do
      let s ← s.saveDupFd oldfd ret
      .ok ({ ret := ret }, s)
    else .error .epochEnd
  | .dup2 oldfd newfd ret =>
    if s.isNormalFile newfd then do
      let s ← s.saveDupFd oldfd ret
      .ok ({ ret := ret }, s)
    else .error .epochEnd
  | .fcntl ret => do
    let s ← s.saveFd ret 0
    .ok ({ ret := ret }, s)
  | .opendir ret => do
    let s ← s.saveDir ret
    .ok ({ ret := ret }, s)
  | .closedir dir => do
    let (ret, s) ← s.closeDir dir
    .ok ({ ret := ret }, s)
  | .fopen ret fileno =>
    if ret ≠ 0 then do
      let s ← s.saveFd fileno ret
      .ok ({ ret := ret }, s)
    else .ok ({ ret := 0 }, s)
  | .fopen64 ret fileno =>
    if ret ≠ 0 then do
      let s ← s.saveFd fileno ret
      .ok ({ ret := ret }, s)
    else do
      let s ← s.saveFd (-1) 0
      .ok ({ ret := 0 }, s)
  | .fclose fp fileno =>
    if fp = 0 then .error .assertion
    else do
      let (ret, s) ← s.closeFile fileno fp
      .ok ({ ret := ret }, s)
  | .mmap ret => do
    let s ← s.record .mmap fun e => { e with addr := ret }
    .ok ({ ret := ret }, s)
  | .munmap start length => do
    let s ← s.record .munmap fun e => { e with addr := start, length := length }
    .ok ({ ret := 0 }, s)
  | .time t ret => do
    let s ← s.record .time fun e => { e with time := ret }
    .ok ({ ret := ret, t := t.map fun old => if ret = -1 then old else ret }, s)
  | .gettimeofday tv tz ret tvalue tzone => do
    let tv := tv.map fun old => if ret = 0 then tvalue else old
    let tz := tz.map fun old => if ret = 0 then tzone else old
    let s ← s.record .gettimeofday fun e => { e with ret := ret, tvalue := tv.getD e.tvalue, tzone := tz.getD e.tzone }
    .ok ({ ret := ret, tv := tv, tz := tz }, s)
  | .times buf ret value =>
    let buf := buf.map fun old => if ret = -1 then old else value
    match buf with
    | some b => do
      -- A failed call leaves the buffer of the entry unwritten.
      let s ← s.record .times fun e => if ret ≠ -1 then { e with ret := ret, buf := b } else { e with ret := ret }
      .ok ({ ret := ret, buf := some b }, s)
    | none =>
      if ret ≠ -1 then .error .crash
      else do
        let s ← s.record .times fun e => { e with ret := ret }
        .ok ({ ret := ret }, s)

/-- A call during a rollback. Nothing is asked of the operating system. -/
def replayCall (s : Sys) : Call → Except Stop (Answer × Sys)
  | .open _ => do
    let (ret, s) ← s.getFdAtOpen
    .ok ({ ret := ret }, s)
  | .close fd =>
    if s.isNormalFile fd then do
      let (ret, s) ← s.getClose
      .ok ({ ret := ret }, s)
    else .error .epochEnd
  | .dup oldfd _ =>
    if s.isNormalFile oldfd then do
      let (ret, s) ← s.getDupFd
      .ok ({ ret := ret }, s)
    else .error .epochEnd
  | .dup2 _ newfd _ =>
    if s.isNormalFile newfd then do
      let (ret, s) ← s.getFdAtOpen
      .ok ({ ret := ret }, s)
    else .error .epochEnd
  | .fcntl _ => do
    let (ret, s) ← s.getFdAtOpen
    .ok ({ ret := ret }, s)
  | .opendir ptr => do
    let (ret, s) ← s.getDirAtOpen ptr
    .ok ({ ret := ret }, s)
  | .closedir dir => do
    let (ret, s) ← s.getCloseDir dir
    .ok ({ ret := ret }, s)
  | .fopen ptr _ => do
    let (ret, s) ← s.getFopen ptr
    .ok ({ ret := ret }, s)
  | .fopen64 ptr _ => do
    let (ret, s) ← s.getFopen ptr
    .ok ({ ret := ret }, s)
  | .fclose fp _ =>
    if fp = 0 then .error .assertion
    else do
      let (ret, s) ← s.getClose
      .ok ({ ret := ret }, s)
  | .mmap _ => do
    let (e, s) ← s.retrieve .mmap
    .ok ({ ret := e.addr }, s)
  | .munmap _ _ => do
    let (_, s) ← s.retrieve .munmap
    .ok ({ ret := 0 }, s)
  | .time t _ => do
    let (e, s) ← s.retrieve .time
    .ok ({ ret := e.time, t := t }, s)
  | .gettimeofday tv tz _ _ _ => do
    let (e, s) ← s.retrieve .gettimeofday
    .ok ({ ret := e.ret, tv := tv.map fun _ => e.tvalue, tz := tz.map fun _ => e.tzone }, s)
  | .times buf _ _ => do
    let (e, s) ← s.retrieve .times
    .ok ({ ret := e.ret, buf := buf.map fun _ => e.buf }, s)

/-- The calls of an epoch, with the answers that the program gets. -/
def calls (call : Sys → Call → Except Stop (Answer × Sys)) (s : Sys) : List Call → Except Stop (List Answer × Sys)
  | [] => .ok ([], s)
  | c :: cs => do
    let (a, s) ← call s c
    let (as, s) ← calls call s cs
    .ok (a :: as, s)

/-- The log of the epoch, read from its start. -/
def prepareRollback (s : Sys) : Sys := { s with log := s.log.prepareRollback }

end Sys

end DoubleTake
