import Pthabt.Lib.Trace
import Pthabt.Hook.FdTable
import Pthabt.Hook.ReadAfterWrite

/-! The files of a hooked process, from `hook_function` down to the queues of the drives. `Files` is
what the program is meant to see: descriptors with a position, and bytes that are read back as they
were written last. -/

namespace Pthabt.Hook

open Lib Run Myfs Nvme

/-! ### Files -/

/-- The bytes that were written to each file, and of each hooked descriptor its file and its
position. -/
@[ext] structure Files where
  data : CString → ℕ → Option Byte
  fds : ℕ → Option (CString × ℕ)

/-- A call of the program on hooked files; `pread64` and `pwrite64` have an offset. -/
inductive FileEvent where
  | openat (fd : ℕ) (filename : CString)
  | close (fd : ℕ)
  | unlink (pathname : CString)
  | read (fd : ℕ) (offset : Option ℕ) (bytes : List Byte)
  | write (fd : ℕ) (offset : Option ℕ) (bytes : List Byte)
  deriving DecidableEq

namespace Files

/-- The position after a call for `count` bytes; a call with an offset leaves it. -/
def after (offset : Option ℕ) (pos count : ℕ) : ℕ :=
  match offset with
  | none => (pos + count) % 2 ^ 64
  | some _ => pos

/-- The bytes of a file after a write at `pos`. -/
def put (old : ℕ → Option Byte) (pos : ℕ) (bytes : List Byte) : ℕ → Option Byte := fun x =>
  if pos ≤ x ∧ x < pos + bytes.length then bytes[x - pos]? else old x

/-- These bytes are in the file from `pos` on, where anything was written. -/
def Holds (data : ℕ → Option Byte) (pos : ℕ) (bytes : List Byte) : Prop :=
  ∀ k b b', bytes[k]? = some b → data (pos + k) = some b' → b = b'

/-- Descriptor `fd` is for `f`, at `pos`. -/
def setFd (a : Files) (fd : ℕ) (f : CString) (pos : ℕ) : Files :=
  { a with fds := Function.update a.fds fd (some (f, pos)) }

/-- What the calls are meant to do. A file is open at most once, and none is unlinked while it is. -/
inductive Step : Files → FileEvent → Files → Prop where
  | openat {a : Files} {fd : ℕ} {f : CString} (hfree : a.fds fd = none)
      (hclosed : ∀ d p, a.fds d ≠ some (f, p)) : Step a (.openat fd f) (a.setFd fd f 0)
  | close {a : Files} {fd : ℕ} {x : CString × ℕ} (hfd : a.fds fd = some x) :
      Step a (.close fd) { a with fds := Function.update a.fds fd none }
  | unlink {a : Files} {f : CString} (hclosed : ∀ d p, a.fds d ≠ some (f, p)) :
      Step a (.unlink f) { a with data := Function.update a.data f fun _ => none }
  | read {a : Files} {fd p : ℕ} {f : CString} {offset : Option ℕ} {bytes : List Byte}
      (hfd : a.fds fd = some (f, p)) (hbytes : Holds (a.data f) (offset.getD p) bytes) :
      Step a (.read fd offset bytes) (a.setFd fd f (after offset p bytes.length))
  | write {a : Files} {fd p : ℕ} {f : CString} {offset : Option ℕ} {bytes : List Byte}
      (hfd : a.fds fd = some (f, p)) :
      Step a (.write fd offset bytes)
        { a.setFd fd f (after offset p bytes.length) with
          data := Function.update a.data f (put (a.data f) (offset.getD p) bytes) }

end Files

/-! ### The program -/

/-- A `read`, `pread64`, `write` or `pwrite64` in progress. -/
structure Pending where
  fd : ℕ
  offset : Option ℕ

/-- The file system with the drives, the tables of `hook.c` and of the kernel, and the call that
`hook_function` is in. -/
structure Program where
  sys : System
  kernel : ℕ → Option Origin
  hookfds : ℕ → ℤ
  curPos : ℕ → ℕ
  pending : Option Pending

/-- A call of the program, a store to its memory, the call that goes on, or a drive. -/
inductive ProgramStep where
  | openat (filename : Path) (ret : ℤ)
  | close (fd : ℤ)
  | unlink (pathname : Path)
  | read (core : ℕ) (fd : ℤ) (count buf : ℕ)
  | pread64 (core : ℕ) (fd : ℤ) (count pos buf : ℕ)
  | write (core : ℕ) (fd : ℤ) (len buf : ℕ)
  | pwrite64 (core : ℕ) (fd : ℤ) (len pos buf : ℕ)
  | store (user : ℕ → Byte)
  | next
  | exec (did core i : ℕ)
  | post (did core i : ℕ) (x : Cqe)

/-- `len` bytes of memory from `buf` on. -/
def bytesAt (user : ℕ → Byte) (buf len : ℕ) : List Byte := (List.range len).map fun k => user (buf + k)

/-- The call that returns at the next step. -/
def System.returning (s : System) : Option Io :=
  match s.io with
  | none => none
  | some io =>
    match io.call, io.pc with
    | .loop, .done => some io
    | _, _ => none

namespace Program

/-- The part of the process that `hook_function` works on. -/
def proc (s : Program) : Process numBlocks := ⟨s.kernel, s.hookfds, s.curPos, s.sys.fs⟩

def withProc (s : Program) (p : Process numBlocks) : Program :=
  { s with
    sys := { s.sys with fs := p.fs }
    kernel := p.kernel
    hookfds := p.hookfds
    curPos := p.curPos }

/-- The files that the slots are open for. -/
def setOpened (s : Program) (opened : ℕ → Option CString) : Program :=
  { s with sys := { s.sys with opened := opened } }

/-- `hook_openat`. -/
def openat (cfg : Config) (filename : Path) (ret : ℤ) (s : Program) : Outcome Program :=
  (hookOpenat cfg filename ret s.proc).map fun p =>
    if isHookedFilename cfg filename then
      (s.withProc p).setOpened
        (Function.update s.sys.opened (p.hookfds ret.toNat).toNat (some filename.chars))
    else s.withProc p

/-- `SYS_close`. -/
def close (fd : ℤ) (s : Program) : Outcome Program :=
  (hookClose fd s.proc).map fun p =>
    if 0 ≤ s.hookfds fd.toNat then
      (s.withProc p).setOpened (Function.update s.sys.opened (s.hookfds fd.toNat).toNat none)
    else s.withProc p

/-- `unlink`. -/
def unlink (pathname : Path) (s : Program) : Program :=
  { s with
    sys := { s.sys with
      fs := (hookUnlink pathname s.proc).fs
      content := Function.update s.sys.content pathname.chars fun _ => none } }

/-- The position of a call: its offset, or `cur_pos[fd]`. -/
def callPos (s : Program) (fd : ℕ) (offset : Option ℕ) : ℕ := offset.getD (s.curPos fd)

/-- `SYS_read` and `pread64`. A descriptor that is not hooked is read by the kernel. -/
def readCall (core : ℕ) (fd : ℤ) (offset : Option ℕ) (count buf : ℕ) (s : Program) : Outcome Program :=
  match byHookfd s.proc fd with
  | none => .fault
  | some .kernel => .ok s
  | some (.myfs hookfd) =>
    (s.sys.readImpl core hookfd.toNat count (s.callPos fd.toNat offset) buf).map fun sys =>
      { s with sys := sys, pending := some ⟨fd.toNat, offset⟩ }

/-- `SYS_write` and `pwrite64`. -/
def writeCall (core : ℕ) (fd : ℤ) (offset : Option ℕ) (len buf : ℕ) (s : Program) : Outcome Program :=
  match byHookfd s.proc fd with
  | none => .fault
  | some .kernel => .ok s
  | some (.myfs hookfd) =>
    (s.sys.writeImpl core hookfd.toNat len (s.callPos fd.toNat offset) buf).map fun sys =>
      { s with sys := sys, pending := some ⟨fd.toNat, offset⟩ }

/-- The call goes on. Where it returns, `read` and `write` advance `cur_pos[fd]`. -/
def next (c : IoConfig) (s : Program) : Outcome Program :=
  (s.sys.next c).map fun sys =>
    match s.sys.returning, s.pending with
    | some io, some k =>
      { s with
        sys := sys
        curPos := Function.update s.curPos k.fd (Files.after k.offset (s.curPos k.fd) io.len)
        pending := none }
    | _, _ => { s with sys := sys }

/-- A process whose descriptors are the kernel's. -/
def start (c : IoConfig) (kernel : ℕ → Option Origin) (sb : Superblock numBlocks)
    (disk : ℕ → ℕ → Byte) (user : ℕ → Byte) : Program :=
  ⟨System.start c sb disk user, kernel, fun _ => notUsedFd, fun _ => 0, none⟩

/-- The position that a descriptor has for the program; a write in progress counts as done. -/
def position (s : Program) (fd : ℕ) : ℕ :=
  match s.sys.io, s.pending with
  | some io, some k =>
    if io.write = true ∧ k.fd = fd then Files.after k.offset (s.curPos fd) io.len else s.curPos fd
  | _, _ => s.curPos fd

/-- The files as the program sees them. -/
def files (s : Program) : Files where
  data := s.sys.content
  fds fd :=
    if 0 ≤ s.hookfds fd then
      (s.sys.opened (s.hookfds fd).toNat).map fun f => (f, s.position fd)
    else none

end Program

namespace ProgramStep

def step (cfg : Config) (c : IoConfig) : ProgramStep → Program → Outcome Program
  | .openat filename ret, s => s.openat cfg filename ret
  | .close fd, s => s.close fd
  | .unlink pathname, s => .ok (s.unlink pathname)
  | .read core fd count buf, s => s.readCall core fd none count buf
  | .pread64 core fd count pos buf, s => s.readCall core fd (some pos) count buf
  | .write core fd len buf, s => s.writeCall core fd none len buf
  | .pwrite64 core fd len pos buf, s => s.writeCall core fd (some pos) len buf
  | .store user, s => (FileStep.step c (.store user) s.sys).map fun sys => { s with sys := sys }
  | .next, s => s.next c
  | .exec did core i, s => (FileStep.step c (.exec did core i) s.sys).map fun sys => { s with sys := sys }
  | .post did core i x, s => (FileStep.step c (.post did core i x) s.sys).map fun sys => { s with sys := sys }

/-- A write call of a hooked descriptor. -/
def writeEvent (fd : ℤ) (offset : Option ℕ) (len buf : ℕ) (s : Program) : Option FileEvent :=
  if 0 ≤ s.hookfds fd.toNat then
    some (.write fd.toNat offset (bytesAt s.sys.driver.user buf len))
  else none

/-- What a step does to hooked files: a read where it returns, any other call where it is made. -/
def event (cfg : Config) : ProgramStep → Program → Option FileEvent
  | .openat filename ret, _ =>
    if isHookedFilename cfg filename then some (.openat ret.toNat filename.chars) else none
  | .close fd, s => if 0 ≤ s.hookfds fd.toNat then some (.close fd.toNat) else none
  | .unlink pathname, _ => some (.unlink pathname.chars)
  | .write _ fd len buf, s => writeEvent fd none len buf s
  | .pwrite64 _ fd len pos buf, s => writeEvent fd (some pos) len buf s
  | .next, s =>
    match s.sys.returning, s.pending with
    | some io, some k =>
      if io.write then none else some (.read k.fd k.offset (bytesAt s.sys.driver.user io.buf io.len))
    | _, _ => none
  | _, _ => none

/-- A read or write, of a hooked descriptor as `read_impl` and `write_impl` need it. -/
def IoAdmissible (names : CString → Prop) (c : IoConfig) (fd : ℤ) (call : ℕ → FileStep) (s : Program) :
    Prop :=
  InTable fd ∧ (0 ≤ s.hookfds fd.toNat → (call (s.hookfds fd.toNat).toNat).Admissible names c s.sys)

/-- The kernel returns descriptors that are not open; a hooked file gets one in the table. Calls on
hooked files are those of `FileStep.Admissible`. -/
def Admissible (names : CString → Prop) (cfg : Config) (c : IoConfig) : ProgramStep → Program → Prop
  | .openat filename ret, s => (0 ≤ ret → s.kernel ret.toNat = none) ∧
    (isHookedFilename cfg filename = true →
      InTable ret ∧ (FileStep.myfsOpen filename.chars).Admissible names c s.sys)
  | .close fd, s => InTable fd ∧ (0 ≤ s.hookfds fd.toNat → s.sys.Quiet c)
  | .unlink pathname, s => (FileStep.myfsUnlink pathname.chars).Admissible names c s.sys
  | .read core fd count buf, s =>
    IoAdmissible names c fd (fun h => .readImpl core h count (s.callPos fd.toNat none) buf) s
  | .pread64 core fd count pos buf, s =>
    IoAdmissible names c fd (fun h => .readImpl core h count (s.callPos fd.toNat (some pos)) buf) s
  | .write core fd len buf, s =>
    IoAdmissible names c fd (fun h => .writeImpl core h len (s.callPos fd.toNat none) buf) s
  | .pwrite64 core fd len pos buf, s =>
    IoAdmissible names c fd (fun h => .writeImpl core h len (s.callPos fd.toNat (some pos)) buf) s
  | .store user, s => (FileStep.store user).Admissible names c s.sys
  | .next, s => FileStep.next.Admissible names c s.sys
  | .exec did core i, s => (FileStep.exec did core i).Admissible names c s.sys
  | .post did core i x, s => (FileStep.post did core i x).Admissible names c s.sys

instance decidableIo (names : CString → Prop) [DecidablePred names] (c : IoConfig) (fd : ℤ)
    (call : ℕ → FileStep) (s : Program) : Decidable (IoAdmissible names c fd call s) :=
  inferInstanceAs (Decidable (_ ∧ _))

instance decidableAdmissible (names : CString → Prop) [DecidablePred names] (cfg : Config) (c : IoConfig) :
    ∀ (o : ProgramStep) (s : Program), Decidable (o.Admissible names cfg c s)
  | .openat .., _ | .close _, _ => inferInstanceAs (Decidable (_ ∧ _))
  | .unlink _, _ | .store _, _ | .next, _ | .exec .., _ | .post .., _ =>
    inferInstanceAs (Decidable (FileStep.Admissible ..))
  | .read core fd count buf, s =>
    decidableIo names c fd (fun h => .readImpl core h count (s.callPos fd.toNat none) buf) s
  | .pread64 core fd count pos buf, s =>
    decidableIo names c fd (fun h => .readImpl core h count (s.callPos fd.toNat (some pos)) buf) s
  | .write core fd len buf, s =>
    decidableIo names c fd (fun h => .writeImpl core h len (s.callPos fd.toNat none) buf) s
  | .pwrite64 core fd len pos buf, s =>
    decidableIo names c fd (fun h => .writeImpl core h len (s.callPos fd.toNat (some pos)) buf) s

end ProgramStep

end Pthabt.Hook
