import Mathlib.Data.FinEnum
import Pthabt.Lib.Run
import Pthabt.Hook.Transfer
import Pthabt.Nvme.Driver

/-! Files on the drives: `myfs_open`, `myfs_close` and `myfs_unlink`, and `read_impl` and
`write_impl` with the calls they make of myfs and of the driver. One ULT makes the calls, one
after the other; the drives work at any time. -/

namespace Pthabt.Hook

open Lib Run Myfs Nvme

/-- `READ_DEG` and `WRITE_DEG`, and what the driver is built with. -/
structure IoConfig where
  nvme : Nvme.Config
  readDeg : ℕ
  writeDeg : ℕ

/-- The call that a loop is in: `nvme_read_req` or `nvme_write_req` on the queue of a drive, or
`nvme_check` of `rid[k]` at one of its tests of `done` or in between. `back` is where the loop goes
on. -/
inductive LoopCall where
  | loop
  | request (did rqK : ℕ) (back : LoopPc)
  | test (again : Bool) (k : ℕ) (back : LoopPc)
  | poll (k : ℕ) (back : LoopPc)

/-- A call of `read_impl` or `write_impl` in progress: its arguments with `core_id`, the length it
goes on with, and where it is. -/
structure Io where
  write : Bool
  core : ℕ
  hookfd : ℕ
  len : ℕ
  pos : ℕ
  buf : ℕ
  ioLen : ℕ
  rid : ℕ → ℤ
  pc : LoopPc
  call : LoopCall

namespace Io

/-- `blksz`. -/
def blksz (io : Io) : ℕ := if io.write then writeBlksz io.pos io.ioLen else readBlksz io.pos io.ioLen

def loop (c : IoConfig) (io : Io) : LoopPc × Option LoopAct :=
  if io.write then writeStep c.writeDeg io.blksz io.ioLen io.pc
  else readStep c.readDeg io.blksz io.ioLen io.pc

/-- The loop goes on at `pc`. -/
def resume (io : Io) (pc : LoopPc) : Io := { io with pc := pc, call := .loop }

end Io

/-- The file system, the drives with the driver and user memory, and the call in progress. The last
two fields say what the program did: the names that its descriptors are for, and the bytes that
it has written to a file since the file was created. -/
structure System where
  fs : Fs numBlocks
  driver : Driver
  io : Option Io
  opened : ℕ → Option CString
  content : CString → ℕ → Option Byte

/-- The program, the ULT in its call, or a drive. -/
inductive FileStep where
  | myfsOpen (filename : CString)
  | myfsClose (fd : ℕ)
  | myfsUnlink (filename : CString)
  | store (user : ℕ → Byte)
  | readImpl (core hookfd len pos buf : ℕ)
  | writeImpl (core hookfd len pos buf : ℕ)
  | next
  | exec (did core i : ℕ)
  | post (did core i : ℕ) (x : Cqe)

/-- What was written, with `len` more bytes of `user` from `buf` on at `pos`. -/
def overlay (old : ℕ → Option Byte) (pos len buf : ℕ) (user : ℕ → Byte) : ℕ → Option Byte := fun x =>
  if pos ≤ x ∧ x < pos + len then some (user (buf + (x - pos))) else old x

namespace System

def openFile (filename : CString) (s : System) : Outcome System :=
  match Myfs.myfsOpen s.fs filename with
  | some (fs, i) => .ok { s with fs := fs, opened := Function.update s.opened i (some filename) }
  | none => .fault

def closeFile (fd : ℕ) (s : System) : System :=
  { s with fs := Myfs.myfsClose s.fs fd, opened := Function.update s.opened fd none }

def unlinkFile (filename : CString) (s : System) : System :=
  { s with
    fs := Myfs.myfsUnlink s.fs filename
    content := Function.update s.content filename fun _ => none }

/-- The beginning of `read_impl`. -/
def readImpl (core hookfd len pos buf : ℕ) (s : System) : Outcome System :=
  let s := { s with fs := (myfsIncrementRef s.fs hookfd).1 }
  if pos % 512 = 0 then
    .ok { s with io := some ⟨false, core, hookfd, len, pos, buf,
      readLen (myfsGetSize s.fs.sb hookfd) pos len, fun _ => 0, .outer 0, .loop⟩ }
  else .abort s

/-- The beginning of `write_impl`. -/
def writeImpl (core hookfd len pos buf : ℕ) (s : System) : Outcome System :=
  if pos % 512 = 0 then
    .ok { s with
      fs := (myfsIncrementRef s.fs hookfd).1
      io := some ⟨true, core, hookfd, len, pos, buf, len, fun _ => 0, .outer 0, .loop⟩
      content := match s.opened hookfd with
        | some f => Function.update s.content f (overlay (s.content f) pos len buf s.driver.user)
        | none => s.content }
  else .abort s

/-- A request of a loop, up to the call of `nvme_read_req` or `nvme_write_req`. -/
def request (c : IoConfig) (io : Io) (rqK j : ℕ) (back : LoopPc) (s : System) : Outcome System :=
  if j + io.blksz < 2 ^ 31 then
    match myfsGetLba s.fs.sb io.hookfd ((io.pos + j) % 2 ^ 64) io.write with
    | none => .fault
    | some (sb, none) => .abort { s with fs := { s.fs with sb := sb } }
    | some (sb, some lba) =>
      let o := if io.write then
          DriverStep.nvmeWriteReq lba (numBlk io.blksz) io.core (reqLen io.blksz io.ioLen j) (io.buf + j)
        else DriverStep.nvmeReadReq lba (numBlk io.blksz) io.core (reqLen io.blksz io.ioLen j) (io.buf + j)
      .ok { s with
        fs := { s.fs with sb := sb }
        driver := o.next c.nvme s.driver
        io := some { io with call := .request (reqDid c.nvme.nd lba) rqK back } }
  else .fault

/-- The loop goes on, or `read_impl` or `write_impl` returns. -/
def loop (c : IoConfig) (io : Io) (s : System) : Outcome System :=
  if io.pc = .done then .ok { s with fs := myfsDecrementRef s.fs io.hookfd, io := none }
  else
    match io.loop c with
    | (back, none) => .ok { s with io := some (io.resume back) }
    | (back, some (.request rqK j)) => s.request c io rqK j back
    | (back, some (.check k)) => .ok { s with io := some { io with call := .test false k back } }

/-- A step in `nvme_read_req` or `nvme_write_req`. After the doorbell it returns the identifier
of the request. -/
def inRequest (c : IoConfig) (io : Io) (did rqK : ℕ) (back : LoopPc) (s : System) : System :=
  let s' := { s with driver := (DriverStep.host did io.core).next c.nvme s.driver }
  match (s.driver.queue did io.core).pc with
  | .doorbell _ cid =>
    { s' with io := some (Io.resume
      { io with rid := Function.update io.rid rqK (ridOf c.nvme did io.core cid) } back) }
  | _ => s'

/-- A test of `done` in `nvme_check`: after the first one that fails it polls the queue, after the
second one it returns 0, and the ULT yields and calls it again. -/
def test (c : IoConfig) (io : Io) (again : Bool) (k : ℕ) (back : LoopPc) (s : System) : Outcome System :=
  if 0 ≤ io.rid k ∧ ridDid c.nvme (io.rid k) < c.nvme.nd then
    if nvmeDone c.nvme s.driver (io.rid k) then .ok { s with io := some (io.resume back) }
    else if again then .ok { s with io := some { io with call := .test false k back } }
    else .ok { s with
      driver := (DriverStep.nvmeCheck (io.rid k)).next c.nvme s.driver
      io := some { io with call := .poll k back } }
  else .fault

/-- A step in the `check_cq` of `nvme_check`. -/
def poll (c : IoConfig) (io : Io) (k : ℕ) (back : LoopPc) (s : System) : System :=
  let did := ridDid c.nvme (io.rid k)
  let core := ridCore c.nvme (io.rid k)
  match (s.driver.queue did core).pc with
  | .idle => { s with io := some { io with call := .test true k back } }
  | _ => { s with driver := (DriverStep.host did core).next c.nvme s.driver }

/-- The next step of the ULT. -/
def next (c : IoConfig) (s : System) : Outcome System :=
  match s.io with
  | none => .ok s
  | some io =>
    match io.call with
    | .loop => s.loop c io
    | .request did rqK back => .ok (s.inRequest c io did rqK back)
    | .test again k back => s.test c io again k back
    | .poll k back => .ok (s.poll c io k back)

/-- The program starts on a mounted file system. -/
def start (c : IoConfig) (sb : Superblock numBlocks) (disk : ℕ → ℕ → Byte) (user : ℕ → Byte) : System :=
  ⟨myfsMount sb, nvmeInit c.nvme disk user, none, fun _ => none, fun _ _ => none⟩

/-- No call is in progress, and all commands of the earlier ones were completed. -/
def Quiet (c : IoConfig) (s : System) : Prop :=
  s.io = none ∧ ∀ did < c.nvme.nd, ∀ core < c.nvme.nCore, ∀ i < (s.driver.queue did core).issued,
    ((s.driver.queue did core).cmd i).stage.Completed

/-- The ring has a block when the request that comes next needs one. -/
def RingLasts (c : IoConfig) (s : System) : Prop :=
  ∀ io rqK j back, s.io = some io → io.call = .loop → io.loop c = (back, some (.request rqK j)) →
    io.write = true → (s.fs.sb.file io.hookfd).block ((io.pos + j) / blockSize) = inactiveBlock →
      s.fs.sb.free.rp ≠ s.fs.sb.free.wp

/-- What a read that has come to its end has put into its buffer is what was written. -/
def ReadBack (s : System) : Prop :=
  ∀ io f, s.io = some io → io.write = false → io.pc = .done → s.opened io.hookfd = some f →
    ∀ k < io.len, ∀ b, s.content f (io.pos + k) = some b → s.driver.user (io.buf + k) = b

end System

namespace System

instance decidableQuiet (c : IoConfig) (s : System) : Decidable (s.Quiet c) :=
  inferInstanceAs (Decidable (_ ∧ _))

instance decidableRingLasts (c : IoConfig) (s : System) : Decidable (s.RingLasts c) :=
  match hio : s.io with
  | none => isTrue fun _ _ _ _ h => by rw [hio] at h; cases h
  | some io =>
    match hcall : io.call, hloop : io.loop c with
    | .loop, (_, some (.request _ j)) =>
      decidable_of_iff (io.write = true →
          (s.fs.sb.file io.hookfd).block ((io.pos + j) / blockSize) = inactiveBlock →
            s.fs.sb.free.rp ≠ s.fs.sb.free.wp)
        ⟨fun hr _ _ _ _ h _ hl => by
          rw [hio] at h
          cases h
          rw [hloop] at hl
          cases hl
          exact hr, fun hr => hr io _ j _ hio hcall hloop⟩
    | .loop, (_, some (.check _)) | .loop, (_, none) => isTrue fun _ _ _ _ h _ hl => by
      rw [hio] at h
      cases h
      rw [hloop] at hl
      cases hl
    | .request .., _ | .test .., _ | .poll .., _ => isTrue fun _ _ _ _ h hc _ => by
      rw [hio] at h
      cases h
      rw [hcall] at hc
      cases hc

instance decidableReadBack (s : System) : Decidable s.ReadBack :=
  match hio : s.io with
  | none => isTrue fun _ _ h => by rw [hio] at h; cases h
  | some io =>
    decidable_of_iff (io.write = false → io.pc = .done → ∀ f ∈ s.opened io.hookfd, ∀ k < io.len,
        ∀ b ∈ s.content f (io.pos + k), s.driver.user (io.buf + k) = b)
      ⟨fun hr _ f h hw hpc hf => by
        rw [hio] at h
        cases h
        exact hr hw hpc f hf, fun hr hw hpc f hf => hr io f hio hw hpc hf⟩

end System

def FileStep.step (c : IoConfig) : FileStep → System → Outcome System
  | .myfsOpen filename, s => s.openFile filename
  | .myfsClose fd, s => .ok (s.closeFile fd)
  | .myfsUnlink filename, s => .ok (s.unlinkFile filename)
  | .store user, s => .ok { s with driver := { s.driver with user := user } }
  | .readImpl core hookfd len pos buf, s => s.readImpl core hookfd len pos buf
  | .writeImpl core hookfd len pos buf, s => s.writeImpl core hookfd len pos buf
  | .next, s => s.next c
  | .exec did core i, s =>
    .ok { s with driver := (DriverStep.exec did core i).next c.nvme s.driver }
  | .post did core i x, s =>
    .ok { s with driver := (DriverStep.post did core i x).next c.nvme s.driver }

/-- The program makes a call. -/
def FileStep.Calls : FileStep → Prop
  | .myfsOpen _ | .myfsClose _ | .myfsUnlink _ | .readImpl .. | .writeImpl .. => True
  | _ => False

/-- A file has at most one descriptor and none when it is unlinked; reads and writes are of open
files, at whole sectors and for lengths that the loops can count; a write begins within the
file or at its end and stays in the block table. -/
def FileStep.Allowed (names : CString → Prop) (c : IoConfig) : FileStep → System → Prop
  | .myfsOpen filename, s => names filename ∧ (∀ fd < maxFiles, s.opened fd ≠ some filename) ∧
    CanOpen s.fs.sb filename
  | .myfsClose fd, s => s.opened fd ≠ none
  | .myfsUnlink filename, s => names filename ∧ ∀ fd < maxFiles, s.opened fd ≠ some filename
  | .store _, s => s.io = none
  | .readImpl core hookfd len pos buf, s => s.opened hookfd ≠ none ∧ core < c.nvme.nCore ∧
    pos % 512 = 0 ∧ len < 2 ^ 31 - 4096 ∧ buf ≠ 0
  | .writeImpl core hookfd len pos _, s => s.opened hookfd ≠ none ∧ core < c.nvme.nCore ∧
    pos % 512 = 0 ∧ len % 512 = 0 ∧ len < 2 ^ 31 - 4096 ∧
      pos ≤ (s.fs.sb.file hookfd).nBlock * blockSize ∧ pos + len ≤ maxBlocksPerFile * blockSize
  | .next, s => s.RingLasts c
  | .exec did core i, s => (DriverStep.exec did core i).Admissible c.nvme s.driver
  | .post did core i x, s => (DriverStep.post did core i x).Admissible c.nvme s.driver

/-- Each call starts when the one before has returned and its commands were completed. -/
def FileStep.Admissible (names : CString → Prop) (c : IoConfig) (o : FileStep) (s : System) : Prop :=
  (o.Calls → s.Quiet c) ∧ o.Allowed names c s

instance decidableCalls : DecidablePred FileStep.Calls
  | .myfsOpen _ | .myfsClose _ | .myfsUnlink _ | .readImpl .. | .writeImpl .. => isTrue trivial
  | .store _ | .next | .exec .. | .post .. => isFalse id

instance decidableAllowed (names : CString → Prop) [DecidablePred names] (c : IoConfig) :
    ∀ (o : FileStep) (s : System), Decidable (o.Allowed names c s)
  | .myfsOpen _, _ | .myfsUnlink _, _ | .readImpl .., _ | .writeImpl .., _ =>
    inferInstanceAs (Decidable (_ ∧ _))
  | .myfsClose fd, s => inferInstanceAs (Decidable (s.opened fd ≠ none))
  | .store _, s => inferInstanceAs (Decidable (s.io = none))
  | .next, s => inferInstanceAs (Decidable (s.RingLasts c))
  | .exec .., _ | .post .., _ => inferInstanceAs (Decidable (DriverStep.Admissible ..))

instance decidableFileAdmissible (names : CString → Prop) [DecidablePred names] (c : IoConfig)
    (o : FileStep) (s : System) : Decidable (o.Admissible names c s) :=
  inferInstanceAs (Decidable (_ ∧ _))

end Pthabt.Hook
