import Pthabt.Lib.Run
import Pthabt.Lib.Window
import Pthabt.Nvme.Queue

/-! `__nvme_init`: it resets the controller of a drive, gives it the admin queue pair, identifies it
and creates with it an I/O queue pair for each core (`create_qp`). The host and the controller share
physical memory, whose addresses the host gets from `/proc/self/pagemap`, and the registers. The
controller resets, gets ready, and executes and completes admin commands at any time. -/

namespace Pthabt.Nvme

open Lib Run PhaseRing

/-! ### Memory -/

/-- `sysconf(_SC_PAGESIZE)`. -/
def pageSize : ℕ := 4096

/-- `v2p`, given the entries of `/proc/self/pagemap` that can be read. -/
def v2p (pagemap : ℕ → Option ℕ) (vaddr : ℕ) : ℕ :=
  match pagemap (vaddr / pageSize) with
  | some e =>
    if e.testBit 63 then ((e &&& (2 ^ 55 - 1)) * pageSize % 2 ^ 64) ||| (vaddr &&& (pageSize - 1)) else 0
  | none => 0

/-- The pages of `malloc_2MB`: `sqcq` of a queue pair, and its `buf4k[i]`. -/
inductive PageId where
  | sqcq (qid : ℕ)
  | buf4k (qid i : ℕ)
  deriving DecidableEq

/-- Words of a 2 MiB page. -/
def pageWords : ℕ := 2 * 1024 * 1024 / 4

/-- What `malloc_2MB` returns for each page and what the memory of the admin `QP` holds in `rbuf`
before the constructor, which does not set it; and what the controller supports: so many I/O queue
pairs, and so many entries in a queue. -/
structure InitConfig where
  nCore : ℕ
  qd : ℕ
  pagemap : ℕ → Option ℕ
  page : PageId → ℕ
  rbuf : ℕ → ℕ
  queues : ℕ
  entries : ℕ

/-- `AQD`. -/
def aqd : ℕ := 8

namespace InitConfig

/-- `NQ`. -/
def nq (c : InitConfig) : ℕ := c.nCore + 1

/-- `n_sqe` and `n_cqe`. -/
def size (c : InitConfig) (qid : ℕ) : ℕ := if qid = 0 then aqd else c.qd

/-- The physical address behind a page. -/
def pa (c : InitConfig) (p : PageId) : ℕ := v2p c.pagemap (c.page p)

/-- `cq_pa`. -/
def cqPa (c : InitConfig) (qid : ℕ) : ℕ := c.pa (.sqcq qid)

/-- `sq_pa`. -/
def sqPa (c : InitConfig) (qid : ℕ) : ℕ := c.pa (.sqcq qid) + 0x4000

/-- `get_cqe`. -/
def getCqe (c : InitConfig) (qid i : ℕ) : ℕ := c.page (.sqcq qid) + 16 * i

/-- `get_sqe`. -/
def getSqe (c : InitConfig) (qid i : ℕ) : ℕ := c.page (.sqcq qid) + 0x4000 + 64 * i

/-- `buf4k_pa` of the admin queue. -/
def adminBufPa (c : InitConfig) (cid : ℕ) : ℕ :=
  c.pa (.buf4k 0 (cid % n2mbPage c.qd)) + blksz * (cid / n2mbPage c.qd)

/-- The word of memory at a virtual address. -/
def word (c : InitConfig) (vaddr : ℕ) : ℕ := v2p c.pagemap vaddr / 4

end InitConfig

/-! ### Admin commands -/

/-- The commands of `__nvme_init`, the last two in `create_qp`. -/
inductive AdminCmd where
  | identify
  | createCq (qid : ℕ)
  | createSq (qid : ℕ)

/-- The fields that the host stores. -/
structure AdminFields where
  opc : ℕ
  nsid : ℕ
  prp1 : ℕ
  cdw10 : ℕ
  cdw11 : Option ℕ

def AdminCmd.fields (c : InitConfig) (cid : ℕ) : AdminCmd → AdminFields
  | .identify => ⟨0x6, 0xffffffff, c.adminBufPa cid, 0x1, none⟩
  | .createCq qid => ⟨0x5, 0, c.cqPa qid, (c.size qid - 1) <<< 16 ||| qid, some 1⟩
  | .createSq qid => ⟨0x1, 0, c.sqPa qid, (c.size qid - 1) <<< 16 ||| qid, some (qid <<< 16 ||| 1)⟩

/-- The stores to a submission entry. -/
def storeFields (f : AdminFields) (m : ℕ → ℕ) : ℕ → ℕ := fun w =>
  if w = 0 then m 0 / 2 ^ 8 * 2 ^ 8 + f.opc
  else if w = 1 then f.nsid
  else if w = 6 then f.prp1 % 2 ^ 32
  else if w = 7 then f.prp1 / 2 ^ 32 % 2 ^ 32
  else if w = 10 then f.cdw10
  else if w = 11 then f.cdw11.getD (m 11)
  else m w

/-- A submission entry as the controller reads it. -/
structure AdminSqe where
  opc : ℕ
  cid : ℕ
  prp1 : ℕ
  cdw10 : ℕ
  cdw11 : ℕ

def readAdmin (m : ℕ → ℕ) : AdminSqe where
  opc := m 0 % 2 ^ 8
  cid := m 0 / 2 ^ 16 % 2 ^ 16
  prp1 := m 6 + 2 ^ 32 * m 7
  cdw10 := m 10
  cdw11 := m 11

/-! ### The controller -/

/-- The registers and queues of a controller. `cqs` and `sqs` are the I/O queues that were created,
with base address and size, and for a submission queue the completion queue it posts to. `pending`
is a command that was executed and not posted, with whether it was accepted; `posted` lists the
identifiers of the completions since the controller got ready. `refused` tells whether a command was
refused, or a register written when or as it may not be, since the last reset. -/
structure Controller where
  cc : ℕ
  csts : ℕ
  asq : ℕ
  acq : ℕ
  aqa : ℕ
  cqs : ℕ → Option (ℕ × ℕ)
  sqs : ℕ → Option (ℕ × ℕ × ℕ)
  sqTail : ℕ
  sqHead : ℕ
  pending : Option (ℕ × Bool)
  posted : List ℕ
  refused : Bool

namespace Controller

/-- The sizes of the admin queues. -/
def asqs (k : Controller) : ℕ := k.aqa % 2 ^ 12 + 1

def acqs (k : Controller) : ℕ := k.aqa / 2 ^ 16 % 2 ^ 12 + 1

def enabled (k : Controller) : Bool := k.cc % 2 == 1

/-- A store to a 32-bit register: `CC`, `AQA` and the doorbells of the admin queues. -/
def write32 (offset v : ℕ) (k : Controller) : Controller :=
  if offset = 0x14 then { k with cc := v, refused := k.refused && v % 2 == 1 }
  else if offset = 0x24 then { k with aqa := v, refused := k.refused || k.enabled }
  else if offset = 0x1000 then
    { k with sqTail := v, refused := k.refused || k.csts != 1 || decide (k.asqs ≤ v) }
  else if offset = 0x1004 then
    { k with refused := k.refused || k.csts != 1 || decide (k.acqs ≤ v) }
  else k

/-- A store to a 64-bit register: `ASQ` and `ACQ`. -/
def write64 (offset v : ℕ) (k : Controller) : Controller :=
  if offset = 0x28 then { k with asq := v, refused := k.refused || k.enabled }
  else if offset = 0x30 then { k with acq := v, refused := k.refused || k.enabled }
  else k

/-- `CSTS` follows `CC`: a disabled controller resets, and an enabled one gets ready with empty
queues. -/
def settle (k : Controller) : Controller :=
  if k.enabled then
    if k.csts = 0 then
      { k with
        csts := 1, cqs := fun _ => none, sqs := fun _ => none, sqTail := 0, sqHead := 0
        pending := none, posted := [] }
    else k
  else { k with csts := 0 }

/-- A command: `Identify` of the controller, or the creation of an I/O queue. A queue is created
once, page-aligned and physically contiguous, with two entries or more of the size that `CC` gives;
a submission queue posts to a completion queue that exists. -/
def perform (c : InitConfig) (e : AdminSqe) (k : Controller) : Option Controller :=
  let qid := e.cdw10 % 2 ^ 16
  let size := e.cdw10 / 2 ^ 16 + 1
  let fits := 0 < qid ∧ qid ≤ c.queues ∧ 1 < size ∧ size ≤ c.entries ∧ e.cdw11 % 2 = 1 ∧
    e.prp1 % pageSize = 0
  if e.opc = 0x6 then
    if e.cdw10 % 2 ^ 8 = 1 ∧ e.prp1 % pageSize = 0 then some k else none
  else if e.opc = 0x5 then
    if fits ∧ k.cqs qid = none ∧ k.cc / 2 ^ 20 % 2 ^ 4 = 4 then
      some { k with cqs := Function.update k.cqs qid (some (e.prp1, size)) }
    else none
  else if e.opc = 0x1 then
    if fits ∧ k.sqs qid = none ∧ (k.cqs (e.cdw11 / 2 ^ 16)).isSome ∧ k.cc / 2 ^ 16 % 2 ^ 4 = 6 then
      some { k with sqs := Function.update k.sqs qid (some (e.prp1, size, e.cdw11 / 2 ^ 16)) }
    else none
  else none

/-- The entry at the head of the admin submission queue. -/
def entry (k : Controller) (mem : ℕ → ℕ) : AdminSqe := readAdmin (window (k.asq / 4 + 16 * k.sqHead) mem)

/-- The controller fetches a command and executes it. -/
def exec (c : InitConfig) (mem : ℕ → ℕ) (k : Controller) : Controller :=
  let e := k.entry mem
  let k' := { k with sqHead := (k.sqHead + 1) % k.asqs }
  match k'.perform c e with
  | some k' => { k' with pending := some (e.cid, true) }
  | none => { k' with pending := some (e.cid, false), refused := true }

/-- `Identify` stores 4096 bytes `x`. -/
def transfer (mem : ℕ → ℕ) (x : ℕ → ℕ) (k : Controller) : ℕ → ℕ :=
  let e := k.entry mem
  if e.opc = 0x6 ∧ e.cdw10 % 2 ^ 8 = 1 ∧ e.prp1 % pageSize = 0 then
    inWindow (e.prp1 / 4) (fun m w => if w < 1024 then x w else m w) mem
  else mem

/-- The completion entry for a command; `x` has the fields that the host does not read. -/
def completion (k : Controller) (cid : ℕ) (accepted : Bool) (x : Cqe) : Cqe :=
  { x with cid := cid, p := tag k.acqs k.posted.length, status := if accepted then 0 else 1 }

end Controller

/-! ### The host -/

/-- Where `check_cq` was called. -/
inductive InitCaller where
  | newSqe (k : AdminCmd)
  | reqAndWait (k : AdminCmd) (cid : ℕ)

/-- Where `__nvme_init` is: before its accesses of `CC` and `CSTS`, the constructor of a `QP`, the
stores of `ACQ`, `ASQ` and `AQA`; in `new_sqe`, before the stores to an entry, the doorbell, a test
of the phase bit (`again` after a round of the loop), the test of `rbuf`, the rest of a round, or the
test of `done`; or at its end. -/
inductive InitPc where
  | disable
  | disabled
  | newQp (qid : ℕ)
  | acq
  | asq
  | aqa
  | enable
  | waitReady
  | newSqe (k : AdminCmd)
  | fill (k : AdminCmd) (cid : ℕ)
  | doorbell (k : AdminCmd) (cid : ℕ)
  | checkCq (back : InitCaller) (again : Bool)
  | copy (back : InitCaller) (cid : ℕ)
  | mark (back : InitCaller) (cid : ℕ)
  | done (k : AdminCmd) (cid : ℕ)
  | returned

/-- Physical memory in words, the controller, the members of the admin `QP`, and the place of the
host. -/
structure BringUp where
  mem : ℕ → ℕ
  ctrl : Controller
  doneFlag : ℕ → ℕ
  rbuf : ℕ → ℕ
  sqTail : ℕ
  cqHead : ℕ
  cqPhase : Bool
  pc : InitPc

/-- After a command: `create_qp` goes on with the submission queue, and `__nvme_init` with the next
`QP`. -/
def AdminCmd.next (c : InitConfig) : AdminCmd → InitPc
  | .identify => if 1 < c.nq then .newQp 1 else .returned
  | .createCq qid => .newSqe (.createSq qid)
  | .createSq qid => if qid + 1 < c.nq then .newQp (qid + 1) else .returned

/-- Where `check_cq` returns to. -/
def InitCaller.back : InitCaller → InitPc
  | .newSqe k => .newSqe k
  | .reqAndWait k cid => .done k cid

namespace BringUp

/-- The memory of a new `QP`: `bzero` of the DMA buffers and of `sqcq`, and the stores to the
submission entries. -/
def qpMem (c : InitConfig) (qid : ℕ) (mem : ℕ → ℕ) : ℕ → ℕ :=
  let zeroed := (List.range (n2mbPage c.qd)).foldl
    (fun mem i => inWindow (c.pa (.buf4k qid i) / 4) (fun m w => if w < pageWords then 0 else m w) mem) mem
  inWindow (c.cqPa qid / 4) (fun m w => if w < pageWords then initSqcq (c.size qid) w else m w) zeroed

/-- `new QP(qid, regs32)`. The members of an I/O queue pair are not used before `__nvme_init`
returns. -/
def newQp (c : InitConfig) (qid : ℕ) (s : BringUp) : BringUp :=
  let s := { s with mem := qpMem c qid s.mem }
  if qid = 0 then
    { s with
      doneFlag := fun _ => 2, rbuf := c.rbuf, sqTail := 0, cqHead := 0, cqPhase := true, pc := .acq }
  else { s with pc := .newSqe (.createCq qid) }

/-- A test of `done_flag[sq_tail]` in `new_sqe`, and the rest of it when the slot is free. -/
def claim (k : AdminCmd) (s : BringUp) : BringUp :=
  if s.doneFlag s.sqTail = 0 then { s with pc := .checkCq (.newSqe k) false }
  else
    { s with
      doneFlag := Function.update s.doneFlag s.sqTail 0
      sqTail := (s.sqTail + 1) % aqd
      pc := .fill k s.sqTail }

/-- The stores to the entry. -/
def fill (c : InitConfig) (k : AdminCmd) (cid : ℕ) (s : BringUp) : BringUp :=
  { s with
    mem := inWindow (c.word (c.getSqe 0 cid)) (storeFields (k.fields c cid)) s.mem
    pc := .doorbell k cid }

def doorbell (k : AdminCmd) (cid : ℕ) (s : BringUp) : BringUp :=
  { s with ctrl := s.ctrl.write32 0x1000 s.sqTail, pc := .checkCq (.reqAndWait k cid) false }

/-- A test of the phase bit in `check_cq`; the head is stored to the doorbell after the loop. -/
def testPhase (c : InitConfig) (back : InitCaller) (again : Bool) (s : BringUp) : BringUp :=
  let cqe := window (c.word (c.getCqe 0 s.cqHead)) s.mem
  if cqeP cqe 0 = s.cqPhase then { s with pc := .copy back (cqeCid cqe 0) }
  else
    { s with
      ctrl := if again then s.ctrl.write32 0x1004 s.cqHead else s.ctrl
      pc := back.back }

/-- The rest of a round of `check_cq`. -/
def mark (back : InitCaller) (cid : ℕ) (s : BringUp) : BringUp :=
  { s with
    doneFlag := Function.update s.doneFlag cid 1
    cqHead := nextHead aqd s.cqHead
    cqPhase := nextPhase aqd s.cqHead s.cqPhase
    pc := .checkCq back true }

/-- The next step of the host. The assertion is on `CSTS`; a `memcpy` to what `rbuf` happens to hold
is undefined. -/
def host (c : InitConfig) (s : BringUp) : Outcome BringUp :=
  match s.pc with
  | .disable => .ok { s with ctrl := s.ctrl.write32 0x14 0, pc := .disabled }
  | .disabled => if s.ctrl.csts = 0 then .ok { s with pc := .newQp 0 } else .abort s
  | .newQp qid => .ok (s.newQp c qid)
  | .acq => .ok { s with ctrl := s.ctrl.write64 0x30 (c.cqPa 0), pc := .asq }
  | .asq => .ok { s with ctrl := s.ctrl.write64 0x28 (c.sqPa 0), pc := .aqa }
  | .aqa => .ok { s with
      ctrl := s.ctrl.write32 0x24 ((c.size 0 - 1) <<< 16 ||| (c.size 0 - 1)), pc := .enable }
  | .enable => .ok { s with ctrl := s.ctrl.write32 0x14 0x460001, pc := .waitReady }
  | .waitReady => .ok { s with pc := if s.ctrl.csts = 1 then .newSqe .identify else .waitReady }
  | .newSqe k => .ok (s.claim k)
  | .fill k cid => .ok (s.fill c k cid)
  | .doorbell k cid => .ok (s.doorbell k cid)
  | .checkCq back again => .ok (s.testPhase c back again)
  | .copy back cid => if s.rbuf cid = 0 then .ok { s with pc := .mark back cid } else .fault
  | .mark back cid => .ok (s.mark back cid)
  | .done k cid =>
    .ok { s with pc := if s.doneFlag cid = 1 then k.next c else .checkCq (.reqAndWait k cid) false }
  | .returned => .ok s

end BringUp

/-- The host goes on, or the controller follows `CC`, executes a command, or completes it. -/
inductive InitStep where
  | host
  | settle
  | exec (x : ℕ → ℕ)
  | post (x : Cqe)

def InitStep.step (c : InitConfig) : InitStep → BringUp → Outcome BringUp
  | .host, s => s.host c
  | .settle, s => .ok { s with ctrl := s.ctrl.settle }
  | .exec x, s => .ok { s with mem := s.ctrl.transfer s.mem x, ctrl := s.ctrl.exec c s.mem }
  | .post x, s =>
    match s.ctrl.pending with
    | some (cid, accepted) =>
      .ok { s with
        mem := inWindow (s.ctrl.acq / 4 + 4 * (s.ctrl.posted.length % s.ctrl.acqs))
          (fun m => writeCqe m 0 (s.ctrl.completion cid accepted x)) s.mem
        ctrl := { s.ctrl with pending := none, posted := s.ctrl.posted ++ [cid] } }
    | none => .ok s

/-- A controller executes commands while it is ready, those whose doorbell was rung, and completes
each one. -/
def InitStep.Admissible : InitStep → BringUp → Prop
  | .host, _ | .settle, _ => True
  | .exec _, s => s.ctrl.enabled ∧ s.ctrl.csts = 1 ∧ s.ctrl.sqHead ≠ s.ctrl.sqTail ∧ s.ctrl.pending = none
  | .post _, s => s.ctrl.enabled ∧ s.ctrl.csts = 1 ∧ s.ctrl.pending.isSome

/-- `__nvme_init` begins, with the controller in any state. -/
def initStart (mem : ℕ → ℕ) (ctrl : Controller) : BringUp :=
  ⟨mem, ctrl, fun _ => 0, fun _ => 0, 0, 0, false, .disable⟩

end Pthabt.Nvme
