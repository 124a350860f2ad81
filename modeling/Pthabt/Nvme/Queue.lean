import Pthabt.Lib.Bytes
import Pthabt.Nvme.Address
import Pthabt.Nvme.QueueMemory

/-! A queue pair (`QP`) with the drive behind it. The host's steps are those of the ULT that
holds the lock of the queue: `new_sqe` with its calls of `check_cq`, the rest of a
request, and the `check_cq` of `nvme_check`. The drive takes a submission entry when its
doorbell is rung, reads the entry and moves the data at any time from then on, and
completes the command at any later time with the identifier it read. -/

namespace Pthabt.Nvme

open Lib Bytes

abbrev Byte := UInt8

/-- What the queues of a drive are built with: `ND`, `QD` and the physical addresses `_buf4k_pa`
of the 2 MiB pages that hold the DMA buffers. -/
structure QpConfig where
  nd : ℕ
  qd : ℕ
  pa : ℕ → ℕ

/-- `N_2MB_PAGE`. -/
def n2mbPage (qd : ℕ) : ℕ := max (qd * blksz / (2 * 1024 * 1024)) 1

/-- `buf4k_pa(cid)`. The memory that `get_buf4k(cid)` points to is named by it too. -/
def QpConfig.buf4kPa (c : QpConfig) (cid : ℕ) : ℕ :=
  c.pa (cid % n2mbPage c.qd) + blksz * (cid / n2mbPage c.qd)

/-- The arguments of `nvme_read_req` and `nvme_write_req`. -/
structure Request where
  write : Bool
  lba : ℕ
  numBlk : ℕ
  len : ℕ
  buf : ℕ

namespace Request

/-- `CDW0.OPC`. -/
def opc (r : Request) : ℕ := if r.write then 0x1 else 0x2

/-- The entry of `rbuf`; `NULL` is 0. -/
def rbuf (r : Request) : ℕ := if r.write then 0 else r.buf

/-- The entry of `len`. -/
def rlen (r : Request) : ℕ := if r.write then 0 else r.len

/-- `num_blk - 1` in a 32-bit word. -/
def cdw12 (r : Request) : ℕ := (r.numBlk + (2 ^ 32 - 1)) % 2 ^ 32

end Request

/-- How far a command is. From `submitted` on its doorbell was rung, `posted` commands have an
entry in the completion queue, and for `consumed` ones `done_flag` was set. -/
inductive Stage where
  | claimed
  | filled
  | submitted
  | executed (e : Sqe)
  | posted
  | consumed

/-- The drive has completed the command. -/
def Stage.Completed : Stage → Prop
  | .posted | .consumed => True
  | _ => False

/-- A command: what it was requested for, and the identifier that `new_sqe` returned. -/
structure Cmd where
  req : Request
  cid : ℕ
  stage : Stage

/-- A `memcpy` of `check_cq` for the command `id`. -/
structure Copy where
  id : ℕ
  dst : ℕ
  cid : ℕ
  len : ℕ

/-- Where the holder of the lock is. `check_cq` goes back to `new_sqe` of a request or, with
none, to `nvme_check`. -/
inductive HostPc where
  | idle
  | newSqe (r : Request)
  | fill (r : Request) (cid : ℕ)
  | doorbell (r : Request) (cid : ℕ)
  | checkCq (back : Option Request)
  | copy (back : Option Request) (cid : ℕ)
  | mark (back : Option Request) (cid : ℕ)

/-- `QP`. The last five fields are its history: `cmd i` is the `i`-th command of the `issued`
ones, `posted` lists the completed ones in ring order, and the first `taken` of
these were consumed. -/
structure Queue where
  sqcq : ℕ → ℕ
  dma : ℕ → Byte
  doneFlag : ℕ → ℕ
  rbuf : ℕ → ℕ
  len : ℕ → ℕ
  sqTail : ℕ
  cqHead : ℕ
  cqPhase : Bool
  pc : HostPc
  cmd : ℕ → Cmd
  issued : ℕ
  posted : List ℕ
  taken : ℕ
  copies : List Copy

/-- A queue as the constructor of `QP` leaves it. -/
def newQueue (qd : ℕ) : Queue where
  sqcq := initSqcq qd
  dma := fun _ => 0
  doneFlag := fun _ => 2
  rbuf := fun _ => 0
  len := fun _ => 0
  sqTail := 0
  cqHead := 0
  cqPhase := true
  pc := .idle
  cmd := fun _ => ⟨⟨false, 0, 0, 0, 0⟩, 0, .consumed⟩
  issued := 0
  posted := []
  taken := 0
  copies := []

/-- What the steps of a queue touch: the queue, the bytes of its drive, and user memory. -/
structure Port where
  queue : Queue
  disk : ℕ → Byte
  user : ℕ → Byte

/-- Command `i` at another stage. -/
def setStage (cmd : ℕ → Cmd) (i : ℕ) (st : Stage) : ℕ → Cmd :=
  Function.update cmd i { cmd i with stage := st }

@[simp] theorem setStage_cid (cmd : ℕ → Cmd) (i : ℕ) (st : Stage) (k : ℕ) :
    (setStage cmd i st k).cid = (cmd k).cid := by
  by_cases h : k = i
  · subst h; simp [setStage]
  · simp [setStage, h]

@[simp] theorem setStage_req (cmd : ℕ → Cmd) (i : ℕ) (st : Stage) (k : ℕ) :
    (setStage cmd i st k).req = (cmd k).req := by
  by_cases h : k = i
  · subst h; simp [setStage]
  · simp [setStage, h]

@[simp] theorem setStage_self (cmd : ℕ → Cmd) (i : ℕ) (st : Stage) :
    (setStage cmd i st i).stage = st := by simp [setStage]

theorem setStage_of_ne (cmd : ℕ → Cmd) (st : Stage) {i k : ℕ} (h : k ≠ i) :
    setStage cmd i st k = cmd k := by simp [setStage, h]

/-! ### The host -/

/-- A test of `done_flag[sq_tail]` in `new_sqe`, and the rest of it when the slot is free. -/
def newSqe (c : QpConfig) (r : Request) (q : Queue) : Queue :=
  if q.doneFlag q.sqTail = 0 then { q with pc := .checkCq (some r) }
  else
    { q with
      doneFlag := Function.update q.doneFlag q.sqTail 0
      sqTail := (q.sqTail + 1) % c.qd
      pc := .fill r q.sqTail
      cmd := Function.update q.cmd q.issued ⟨r, q.sqTail, .claimed⟩
      issued := q.issued + 1 }

/-- `nvme_read_req` or `nvme_write_req` between `new_sqe` and `sq_doorbell`. -/
def fill (c : QpConfig) (r : Request) (cid : ℕ) (s : Port) : Port :=
  let q := s.queue
  let pa := c.buf4kPa cid
  { s with queue :=
    { q with
      dma := if r.write then blit q.dma s.user pa r.buf r.len else q.dma
      sqcq := writeSqe q.sqcq cid r.opc pa (reqCdw10 c.nd r.lba) r.cdw12
      rbuf := Function.update q.rbuf cid r.rbuf
      len := Function.update q.len cid r.rlen
      pc := .doorbell r cid
      cmd := setStage q.cmd (q.issued - 1) .filled } }

/-- `sq_doorbell` and `unlock`. -/
def doorbell (q : Queue) : Queue :=
  { q with pc := .idle, cmd := setStage q.cmd (q.issued - 1) .submitted }

/-- A test of the phase bit in `check_cq`. -/
def testPhase (back : Option Request) (q : Queue) : Queue :=
  if cqeP q.sqcq q.cqHead = q.cqPhase then { q with pc := .copy back (cqeCid q.sqcq q.cqHead) }
  else { q with pc := match back with | none => .idle | some r => .newSqe r }

/-- The `memcpy` of `check_cq`. -/
def copyOut (c : QpConfig) (back : Option Request) (cid : ℕ) (s : Port) : Port :=
  let q := s.queue
  if q.rbuf cid = 0 then { s with queue := { q with pc := .mark back cid } }
  else
    { s with
      user := blit s.user q.dma (q.rbuf cid) (c.buf4kPa cid) (q.len cid)
      queue :=
        { q with
          pc := .mark back cid
          copies := q.copies ++ [⟨q.posted.getD q.taken 0, q.rbuf cid, cid, q.len cid⟩] } }

/-- The rest of a round of `check_cq`. -/
def mark (c : QpConfig) (back : Option Request) (cid : ℕ) (q : Queue) : Queue :=
  { q with
    doneFlag := Function.update q.doneFlag cid 1
    cqHead := nextHead c.qd q.cqHead
    cqPhase := nextPhase c.qd q.cqHead q.cqPhase
    pc := .checkCq back
    cmd := setStage q.cmd (q.posted.getD q.taken 0) .consumed
    taken := q.taken + 1 }

/-- The next step of the holder of the lock. -/
def hostStep (c : QpConfig) (s : Port) : Port :=
  match s.queue.pc with
  | .idle => s
  | .newSqe r => { s with queue := newSqe c r s.queue }
  | .fill r cid => fill c r cid s
  | .doorbell _ _ => { s with queue := doorbell s.queue }
  | .checkCq back => { s with queue := testPhase back s.queue }
  | .copy back cid => copyOut c back cid s
  | .mark back cid => { s with queue := mark c back cid s.queue }

/-! ### The drive -/

/-- The transfer of an entry: sectors have 512 bytes, and bits 0 to 15 of `CDW12` are the
number of sectors less one. -/
def transfer (e : Sqe) (s : Port) : Port :=
  let n := (e.cdw12 % 2 ^ 16 + 1) * 512
  if e.opc = 0x2 then
    { s with queue := { s.queue with dma := blit s.queue.dma s.disk e.prp1 (e.cdw10 * 512) n } }
  else if e.opc = 0x1 then
    { s with disk := blit s.disk s.queue.dma (e.cdw10 * 512) e.prp1 n }
  else s

/-- The drive reads the entry of command `i` and moves its data. -/
def exec (i : ℕ) (s : Port) : Port :=
  let e := readSqe s.queue.sqcq (s.queue.cmd i).cid
  let s := transfer e s
  { s with queue := { s.queue with cmd := setStage s.queue.cmd i (.executed e) } }

/-- The drive completes command `i` with the identifier of its entry `e`. -/
def post (c : QpConfig) (i : ℕ) (e : Sqe) (x : Cqe) (q : Queue) : Queue :=
  { q with
    sqcq := writeCqe q.sqcq (q.posted.length % c.qd)
      { x with cid := e.cid, p := PhaseRing.tag c.qd q.posted.length }
    cmd := setStage q.cmd i .posted
    posted := q.posted ++ [i] }

/-! ### Steps -/

/-- A ULT takes the free lock for a request or for the `check_cq` of `nvme_check`; the holder
takes its next step; or the drive does something for command `i`. -/
inductive QueueStep where
  | request (r : Request)
  | call
  | host
  | exec (i : ℕ)
  | post (i : ℕ) (x : Cqe)

def QueueStep.step (c : QpConfig) : QueueStep → Port → Port
  | .request r, s => { s with queue := { s.queue with pc := .newSqe r } }
  | .call, s => { s with queue := { s.queue with pc := .checkCq none } }
  | .host, s => hostStep c s
  | .exec i, s => Nvme.exec i s
  | .post i x, s =>
    match (s.queue.cmd i).stage with
    | .executed e => { s with queue := Nvme.post c i e x s.queue }
    | _ => s

/-- A request moves at most a DMA buffer, and reads into a buffer that is not `NULL`. -/
def Request.Fits (r : Request) : Prop := r.len ≤ blksz ∧ (r.write = false → r.buf ≠ 0)

/-- The lock is free for the ULT that takes it, and the drive works on submitted commands, each of
which it executes and completes once. -/
def QueueStep.Admissible : QueueStep → Queue → Prop
  | .request r, q => q.pc = .idle ∧ r.Fits
  | .call, q => q.pc = .idle
  | .host, _ => True
  | .exec i, q => i < q.issued ∧ (q.cmd i).stage = .submitted
  | .post i _, q => i < q.issued ∧ ∃ e, (q.cmd i).stage = .executed e

instance decidableCompleted : DecidablePred Stage.Completed
  | .posted | .consumed => isTrue trivial
  | .claimed | .filled | .submitted | .executed _ => isFalse id

instance decidableSubmitted : DecidablePred fun st => st = Stage.submitted
  | .submitted => isTrue rfl
  | .claimed | .filled | .executed _ | .posted | .consumed => isFalse nofun

instance decidableExecuted : DecidablePred fun st => ∃ e, st = Stage.executed e
  | .executed e => isTrue ⟨e, rfl⟩
  | .claimed | .filled | .submitted | .posted | .consumed => isFalse nofun

instance decidableIdle : DecidablePred fun pc => pc = HostPc.idle
  | .idle => isTrue rfl
  | .newSqe _ | .fill _ _ | .doorbell _ _ | .checkCq _ | .copy _ _ | .mark _ _ => isFalse nofun

instance decidableFits (r : Request) : Decidable r.Fits := inferInstanceAs (Decidable (_ ∧ _))

instance decidableQueueAdmissible : ∀ (o : QueueStep) (q : Queue), Decidable (o.Admissible q)
  | .request r, q => inferInstanceAs (Decidable (q.pc = .idle ∧ r.Fits))
  | .call, q => inferInstanceAs (Decidable (q.pc = .idle))
  | .host, _ => isTrue trivial
  | .exec i, q => inferInstanceAs (Decidable (i < q.issued ∧ (q.cmd i).stage = .submitted))
  | .post i _, q => inferInstanceAs (Decidable (i < q.issued ∧ ∃ e, (q.cmd i).stage = .executed e))

end Pthabt.Nvme
