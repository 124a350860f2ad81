import Pthabt.Lib.Run
import Pthabt.Myfs.Superblock

/-! System calls of the hooked process (`hook.c`, built without `USE_IO_URING`). A call made
by a ULT goes through `hook_function`, which keeps in `hookfds` the slot of every
descriptor it hooked; any other call goes to the kernel alone. Of the kernel, the model
keeps what each descriptor was opened by; its results are part of the calls. -/

namespace Pthabt.Hook

open Lib Run Myfs

/-- `MAX_HOOKFD`. -/
@[irreducible] def maxHookfd : ℕ := 1024

/-- `NOT_USED_FD`. -/
def notUsedFd : ℤ := -1

/-! ### Hooked names -/

/-- The environment variables `HOOKED_FILENAMES`, split at its colons, and `HOOKED_ROCKSDB_DIR`. -/
structure Config where
  hookedFilenames : List CString
  hookedRocksdbDir : Option CString

/-- A `char *` argument: its string and the memory behind the terminator. -/
structure Path where
  chars : CString
  beyond : ℕ → UInt8

/-- The byte `k` places after the pointer. -/
def Path.byte (p : Path) (k : ℕ) : UInt8 :=
  if h : k < p.chars.strlen then p.chars.bytes.get ⟨k, h⟩
  else if k = p.chars.strlen then 0
  else p.beyond (k - p.chars.strlen - 1)

/-- `".sst"`. -/
def sstSuffix : List UInt8 := [46, 115, 115, 116]

def sstFilenameLen : ℕ := 7

/-- `is_hooked_filename`. -/
def isHookedFilename (cfg : Config) (filename : Path) : Bool :=
  cfg.hookedFilenames.any (fun name =>
      CString.strncmp name.bytes filename.chars.bytes name.strlen = 0) ||
    match cfg.hookedRocksdbDir with
    | none => false
    | some dir =>
      CString.strncmp dir.bytes filename.chars.bytes dir.strlen = 0 &&
        CString.strncmp sstSuffix
          ((List.range sstSuffix.length).map fun k =>
            filename.byte (dir.strlen + sstFilenameLen + k))
          sstSuffix.length = 0

/-! ### The process -/

/-- What a descriptor was opened by. -/
inductive Origin where
  | openat (filename : Path)
  | socket
  | dup2

structure Process (N : ℕ) where
  /-- The open descriptors. -/
  kernel : ℕ → Option Origin
  hookfds : ℕ → ℤ
  curPos : ℕ → ℕ
  fs : Fs N

variable {N : ℕ}

namespace Process

/-- `__hook_init`, given the descriptors the process has by then and the mounted file system. -/
def init (kernel : ℕ → Option Origin) (fs : Fs N) : Process N :=
  ⟨kernel, fun _ => notUsedFd, fun _ => 0, fs⟩

/-- The kernel returns `ret`, a new descriptor or a negative error. -/
def kernelOpen (s : Process N) (o : Origin) (ret : ℤ) : Process N :=
  if 0 ≤ ret then { s with kernel := Function.update s.kernel ret.toNat (some o) } else s

def kernelClose (s : Process N) (fd : ℤ) : Process N :=
  if 0 ≤ fd then { s with kernel := Function.update s.kernel fd.toNat none } else s

/-- With equal descriptors the kernel changes nothing. -/
def kernelDup2 (s : Process N) (oldfd newfd ret : ℤ) : Process N :=
  if 0 ≤ ret ∧ oldfd ≠ newfd then s.kernelOpen .dup2 newfd else s

/-- Set `hookfds[fd]` and `cur_pos[fd]`. -/
def setHook (s : Process N) (fd : ℕ) (hookfd : ℤ) (pos : ℕ) (fs : Fs N) : Process N :=
  { s with
    hookfds := Function.update s.hookfds fd hookfd
    curPos := Function.update s.curPos fd pos
    fs := fs }

end Process

/-- An index of `hookfds` and `cur_pos`. -/
def InTable (fd : ℤ) : Prop := 0 ≤ fd ∧ fd < maxHookfd

instance (fd : ℤ) : Decidable (InTable fd) := inferInstanceAs (Decidable (_ ∧ _))

/-! ### `hook_function` -/

/-- The hooked part of `hook_openat`, after the kernel returned `ret`. -/
def hookOpened (filename : Path) (ret : ℤ) (s : Process N) : Outcome (Process N) :=
  if ret < maxHookfd then
    if 0 ≤ ret then
      match myfsOpen s.fs filename.chars with
      | some (fs, i) => .ok (s.setHook ret.toNat i 0 fs)
      | none => .fault
    else .fault
  else .abort s

/-- `hook_openat`. -/
def hookOpenat (cfg : Config) (filename : Path) (ret : ℤ) (s : Process N) : Outcome (Process N) :=
  let s := s.kernelOpen (.openat filename) ret
  if isHookedFilename cfg filename then hookOpened filename ret s else .ok s

/-- `SYS_close`. -/
def hookClose (fd : ℤ) (s : Process N) : Outcome (Process N) :=
  if InTable fd then
    if 0 ≤ s.hookfds fd.toNat then
      .ok ((s.setHook fd.toNat notUsedFd (s.curPos fd.toNat)
        (myfsClose s.fs (s.hookfds fd.toNat).toNat)).kernelClose fd)
    else .ok (s.kernelClose fd)
  else .fault

/-- The hooked part of `unlink`; the kernel's touches no descriptor. -/
def hookUnlink (pathname : Path) (s : Process N) : Process N :=
  { s with fs := myfsUnlink s.fs pathname.chars }

/-- The calls that `hook_function` routes by descriptor. -/
inductive IoCall where
  | read
  | pread64
  | write
  | pwrite64
  | fstat
  deriving DecidableEq

/-- Where a call goes. -/
inductive Route where
  | kernel
  | myfs (hookfd : ℤ)
  deriving DecidableEq

/-- `hookfd >= 0`, of a descriptor in the table. -/
def byHookfd (s : Process N) (fd : ℤ) : Option Route :=
  if InTable fd then
    some (if 0 ≤ s.hookfds fd.toNat then .myfs (s.hookfds fd.toNat) else .kernel)
  else none

/-- The routing of `hook_function`, from a ULT or not. There is no result when the descriptor
indexes `hookfds` outside its bounds. -/
def route (s : Process N) (ult : Bool) (call : IoCall) (fd : ℤ) : Option Route :=
  if ult then
    match call with
    | .fstat => if 0 ≤ fd then byHookfd s fd else some .kernel
    | _ => byHookfd s fd
  else some .kernel

end Pthabt.Hook
