import Pthabt.IoUring.Check

/-! `__io_uring_read`, `__io_uring_write` and `__io_uring_bottom` (`hook.c`) on one core. Each
chunk of a transfer takes the next slot of the submission ring; `__io_uring_bottom` lets requests
gather before it submits them, and then waits for `done_flag`. The ULTs of a core switch at
`ult_yield`; the kernel posts completions at any time. -/

namespace Pthabt.IoUring

open Run

/-- `IO_URING_QD`, the number of slots. -/
def ioUringQD : ℕ := 512 * 8

def ioUringTH1 : ℕ := 8

def ioUringTH2 : ℕ := 1

/-- The arguments of `__io_uring_read` or `__io_uring_write`. -/
structure Io where
  write : Bool
  fd : ℕ
  buf : ℕ
  count : ℕ
  pos : ℤ
  deriving DecidableEq

/-- What the code fills in of `struct io_uring_sqe`. -/
structure Sqe where
  write : Bool
  fd : ℕ
  addr : ℕ
  len : ℕ
  off : ℤ
  userData : ℕ

def Io.unit (io : Io) : ℕ := if io.write then 32768 else 4096 * 256

def Io.sz (io : Io) (off : ℕ) : ℕ := if io.unit < io.count - off then io.unit else io.count - off

/-- The request for the chunk at `off`. -/
def Io.prep (io : Io) (off sqeId : ℕ) : Sqe :=
  ⟨io.write, io.fd, io.buf + off, io.sz off, io.pos + off, sqeId⟩

/-- The chunk at `off` of a transfer, which is the request number `n` on its core. -/
structure Chunk where
  io : Io
  off : ℕ
  n : ℕ
  deriving DecidableEq

/-- The slot of the request. -/
def Chunk.sqeId (c : Chunk) : ℕ := c.n % ioUringQD

/-- Where a ULT is: outside; before the test of the loop over the chunks; at the start of
`__io_uring_bottom`, or of an iteration of its first loop; before a check, in it, or before the
test of `done_flag`. -/
inductive UltPc where
  | idle
  | loop (io : Io) (off : ℕ)
  | bottom (c : Chunk)
  | batch (c : Chunk) (subCnt i : ℕ)
  | check (c : Chunk)
  | walk (c : Chunk) (w : Walk)
  | test (c : Chunk)
  deriving DecidableEq

/-- All requests that were prepared, in ring order, how many of them were submitted, and which
were completed, in the order of the completion queue; the counters of the core; the places of the
ULTs and the one that runs; and the requests whose ULT has left the last loop. -/
structure Core where
  sqes : List Sqe
  submitted : ℕ
  completed : List ℕ
  cq : Cq
  pendingReq : ℕ
  submitCnt : ℕ
  pc : ℕ → UltPc
  running : Option ℕ
  finished : List ℕ

namespace Core

/-- ULT `u` goes on running. -/
def goto (s : Core) (u : ℕ) (pc : UltPc) : Core :=
  { s with pc := Function.update s.pc u pc, running := some u }

/-- ULT `u` calls `ult_yield`, or returns to its caller. -/
def yield_ (s : Core) (u : ℕ) (pc : UltPc) : Core :=
  { s with pc := Function.update s.pc u pc, running := none }

/-- `iouring_enter` and what follows it. -/
def submit (s : Core) : Core :=
  { s with submitted := s.sqes.length, pendingReq := 0, submitCnt := (s.submitCnt + 1) % 65536 }

/-- The request for the chunk at `off`, in the next slot. -/
def prepare (s : Core) (io : Io) (off : ℕ) : Core :=
  { s with
    sqes := s.sqes ++ [io.prep off (s.sqes.length % ioUringQD)]
    cq := s.cq.clear (s.sqes.length % ioUringQD) }

/-- The next step of ULT `u`. `io_uring_get_sqe` returns `NULL` when no slot is free. -/
def next (u : ℕ) (s : Core) : Outcome Core :=
  match s.pc u with
  | .idle => .ok s
  | .loop io off =>
    if off < io.count then
      if s.sqes.length - s.submitted < ioUringQD then
        .ok ((s.prepare io off).goto u (.bottom ⟨io, off, s.sqes.length⟩))
      else .fault
    else .ok (s.yield_ u .idle)
  | .bottom c =>
    if ioUringTH1 ≤ s.pendingReq then .ok (s.submit.goto u (.check c))
    else .ok ({ s with pendingReq := s.pendingReq + 1 }.goto u (.batch c s.submitCnt 0))
  | .batch c subCnt i =>
    if subCnt ≠ s.submitCnt then .ok (s.goto u (.check c))
    else if ioUringTH2 < i then .ok (s.submit.goto u (.check c))
    else .ok (s.yield_ u (.batch c subCnt (i + 1)))
  | .check c => .ok (s.goto u (.walk c s.cq.begin_))
  | .walk c w =>
    .ok ({ s with cq := (s.cq.iterate w).1 }.goto u
      (match (s.cq.iterate w).2 with
        | some w' => .walk c w'
        | none => .test c))
  | .test c =>
    if s.cq.doneFlag c.sqeId then
      .ok ({ s with finished := s.finished ++ [c.n] }.goto u (.loop c.io (c.off + c.io.unit)))
    else .ok (s.yield_ u (.check c))

/-- The kernel posts the completion of request `n`. -/
def post (s : Core) (n : ℕ) (res : ℤ) : Core :=
  match s.sqes[n]? with
  | some e => { s with cq := s.cq.post ⟨e.userData, res⟩, completed := s.completed ++ [n] }
  | none => s

/-- No request was made. -/
def init (doneFlag : ℕ → Bool) : Core where
  sqes := []
  submitted := 0
  completed := []
  cq := ⟨[], 0, doneFlag, [], [], 0⟩
  pendingReq := 0
  submitCnt := 0
  pc := fun _ => .idle
  running := none
  finished := []

end Core

/-- A ULT begins a transfer or goes on, or the kernel completes a request. -/
inductive CoreStep where
  | call (u : ℕ) (io : Io)
  | next (u : ℕ)
  | post (n : ℕ) (res : ℤ)

def CoreStep.step : CoreStep → Core → Outcome Core
  | .call u io, s => .ok (s.goto u (.loop io 0))
  | .next u, s => s.next u
  | .post n res, s => .ok (s.post n res)

/-- ULT `u` runs, or may be scheduled. -/
def Core.Scheduled (s : Core) (u : ℕ) : Prop := s.running = none ∨ s.running = some u

/-- The other ULTs of a core stand still until the one that runs yields; the kernel completes each
request that was submitted once. -/
def CoreStep.Admissible : CoreStep → Core → Prop
  | .call u _, s => s.Scheduled u ∧ s.pc u = .idle
  | .next u, s => s.Scheduled u
  | .post n _, s => n < s.submitted ∧ n ∉ s.completed

instance (s : Core) (u : ℕ) : Decidable (s.Scheduled u) := instDecidableOr

instance (o : CoreStep) (s : Core) : Decidable (o.Admissible s) :=
  match o with
  | .call _ _ => instDecidableAnd
  | .next u => inferInstanceAs (Decidable (s.Scheduled u))
  | .post _ _ => instDecidableAnd

namespace Core

variable {s : Core} {u v : ℕ}

/-- The places of all ULTs, after one went to `pc`. -/
theorem forall_update {P : ℕ → UltPc → Prop} {f : ℕ → UltPc} {pc : UltPc}
    (h : ∀ v, v ≠ u → P v (f v)) (hpc : P u pc) : ∀ v, P v (Function.update f u pc v) := by
  intro v
  by_cases hv : v = u
  · subst hv
    rwa [Function.update_self]
  · rw [Function.update_of_ne hv]
    exact h v hv

end Core

end Pthabt.IoUring
