import Pthabt.Lib.Ranges
import Pthabt.Hook.FdTable
import Pthabt.Hook.Transfer

/-! `SYS_write` by several ULTs on one hooked descriptor. The file position is read before
`write_impl` and advanced after it, and `write_impl` yields while it waits for its requests, so a
ULT that calls in between writes the same range. -/

namespace Pthabt.Hook

open Lib Run Myfs

/-- Where a ULT is: outside, or in `write_impl` of `len` bytes at `pos` of slot `hookfd`. -/
inductive WritePc where
  | idle
  | write (hookfd len pos : ℕ) (pc : LoopPc)
  deriving DecidableEq

/-- The bytes that the call writes. -/
def WritePc.len : WritePc → ℕ
  | .idle => 0
  | .write _ len _ _ => len

/-- The arguments of `nvme_write_req`, and the offset in the file that `lba` is the address of. -/
structure WriteReq where
  offset : ℕ
  lba : ℕ
  numBlk : ℕ
  len : ℕ

def WriteReq.range (r : WriteReq) : ℕ × ℕ := (r.offset, r.len)

variable {U : Type*} [DecidableEq U] {N : ℕ}

/-- The process, the places of the ULTs and the one that runs; the lengths of the calls that were
made, and the requests. -/
structure Writers (U : Type*) (N : ℕ) where
  proc : Process N
  pc : U → WritePc
  running : Option U
  lens : List ℕ
  requests : List WriteReq

/-- A ULT calls `SYS_write`, or goes on in it. A step that waits for a request is told what
`nvme_check` returns. -/
inductive WriteStep (U : Type*) where
  | write (u : U) (len : ℕ)
  | next (u : U) (check : Bool)

namespace Writers

/-- ULT `u` goes on running. -/
def goto (s : Writers U N) (u : U) (pc : WritePc) : Writers U N :=
  { s with pc := Function.update s.pc u pc, running := some u }

/-- ULT `u` calls `ult_yield`, or returns to its caller. -/
def yield_ (s : Writers U N) (u : U) (pc : WritePc) : Writers U N :=
  { s with pc := Function.update s.pc u pc, running := none }

def setFs (s : Writers U N) (fs : Fs N) : Writers U N := { s with proc := { s.proc with fs := fs } }

/-- `cur_pos[fd] += len`. -/
def advance (s : Writers U N) (fd len : ℕ) : Writers U N :=
  { s with
    proc := { s.proc with
      curPos := Function.update s.proc.curPos fd ((s.proc.curPos fd + len) % 2 ^ 64) } }

/-- The beginning of `SYS_write` and of `write_impl`. A descriptor that is not hooked goes to
the kernel. -/
def sysWrite (fd : ℕ) (u : U) (len : ℕ) (s : Writers U N) : Outcome (Writers U N) :=
  match route s.proc true .write fd with
  | none => .fault
  | some .kernel => .ok s
  | some (.myfs hookfd) =>
    if s.proc.curPos fd % 512 = 0 then
      .ok ({ s.setFs (myfsIncrementRef s.proc.fs hookfd.toNat).1 with lens := s.lens ++ [len] }.goto u
        (.write hookfd.toNat len (s.proc.curPos fd) (.outer 0)))
    else .abort s

/-- One request of `write_impl`, for the bytes at `buf + j`; then `j += blksz`. -/
def request (hookfd len pos j : ℕ) (s : Writers U N) : Outcome (Writers U N) :=
  if j + writeBlksz pos len < 2 ^ 31 then
    match myfsGetLba s.proc.fs.sb hookfd ((pos + j) % 2 ^ 64) true with
    | none => .fault
    | some (sb, none) => .abort (s.setFs { s.proc.fs with sb := sb })
    | some (sb, some lba) =>
      .ok { s.setFs { s.proc.fs with sb := sb } with
        requests := s.requests ++ [⟨(pos + j) % 2 ^ 64, lba, numBlk (writeBlksz pos len),
          reqLen (writeBlksz pos len) len j⟩] }
  else .fault

/-- The next step of ULT `u`. -/
def next (writeDeg fd : ℕ) (u : U) (check : Bool) (s : Writers U N) : Outcome (Writers U N) :=
  match s.pc u with
  | .idle => .ok s
  | .write hookfd len _ .done =>
    .ok (((s.setFs (myfsDecrementRef s.proc.fs hookfd)).advance fd len).yield_ u .idle)
  | .write hookfd len pos pc =>
    match writeStep writeDeg (writeBlksz pos len) len pc with
    | (pc', none) => .ok (s.goto u (.write hookfd len pos pc'))
    | (pc', some (.request _ j)) =>
      (request hookfd len pos j s).map fun s => s.goto u (.write hookfd len pos pc')
    | (pc', some (.check _)) =>
      .ok (if check then s.goto u (.write hookfd len pos pc')
        else s.yield_ u (.write hookfd len pos pc))

/-- No call was made. -/
def begin_ (p : Process N) : Writers U N := ⟨p, fun _ => .idle, none, [], []⟩

/-- ULT `u` runs, or may be scheduled. -/
def Scheduled (s : Writers U N) (u : U) : Prop := s.running = none ∨ s.running = some u

instance (s : Writers U N) (u : U) : Decidable (s.Scheduled u) := instDecidableOr

/-- The requested ranges of the file. -/
def ranges (s : Writers U N) : List (ℕ × ℕ) := s.requests.map WriteReq.range

end Writers

def WriteStep.step (writeDeg fd : ℕ) : WriteStep U → Writers U N → Outcome (Writers U N)
  | .write u len, s => s.sysWrite fd u len
  | .next u check, s => s.next writeDeg fd u check

/-- The other ULTs stand still until the one that runs yields; lengths are multiples of 512. -/
def WriteStep.Admissible : WriteStep U → Writers U N → Prop
  | .write u len, s => s.Scheduled u ∧ s.pc u = .idle ∧ 512 ∣ len ∧ len < 2 ^ 63
  | .next u _, s => s.Scheduled u

/-- No byte was written twice. When all calls have returned, the bytes that were written are those
from `p` on, as many as the calls were for, and the position is behind them. -/
structure Placed (fd p : ℕ) (s : Writers U N) : Prop where
  separate : s.ranges.Pairwise Separate
  tiled : (∀ u, s.pc u = .idle) → ∀ x, Covers s.ranges x ↔ p ≤ x ∧ x < p + s.lens.sum
  position : (∀ u, s.pc u = .idle) → s.proc.curPos fd = p + s.lens.sum

/-- A call for a positive length starts only when no other one is in progress; its length is an
`int` and its range has room in the block table. -/
def WriteStep.Serial (fd : ℕ) : WriteStep U → Writers U N → Prop
  | .write _ len, s =>
    len = 0 ∨ (∀ v, (s.pc v).len = 0) ∧ len < 2 ^ 31 ∧
      s.proc.curPos fd + len ≤ maxBlocksPerFile * blockSize
  | .next _ _, _ => True

/-- What is known of a call of positive length in progress. -/
structure Running (fd p : ℕ) (s : Writers U N) (len pos : ℕ) (pc : LoopPc) : Prop where
  pos_eq : pos = s.proc.curPos fd
  sum_eq : s.proc.curPos fd + len = p + s.lens.sum
  len_lt : len < 2 ^ 31
  room : pos + len ≤ maxBlocksPerFile * blockSize
  tiles : Tiles s.ranges p (pos + progress len pc)

/-- Invariant of serial runs. -/
structure PosInv (fd p : ℕ) (s : Writers U N) : Prop where
  hooked : Hooked s.proc fd
  small : s.proc.curPos fd < 2 ^ 64
  alone : ∀ u v, 0 < (s.pc u).len → 0 < (s.pc v).len → u = v
  loop : ∀ u i len pos pc, s.pc u = .write i len pos pc →
    writeBlksz pos len ∣ len ∧ LoopInv (writeBlksz pos len) len pc
  active : ∀ u i len pos pc, s.pc u = .write i len pos pc → 0 < len → Running fd p s len pos pc
  rest : (∀ u, (s.pc u).len = 0) →
    Tiles s.ranges p (s.proc.curPos fd) ∧ s.proc.curPos fd = p + s.lens.sum

/-! ### Single steps -/

section Steps

variable {fd p : ℕ} {s s' : Writers U N} {u : U}

omit [DecidableEq U] in
/-- A serial state is a placed one. -/
theorem PosInv.placed (h : PosInv fd p s) : Placed fd p s where
  separate := by
    by_cases hrest : ∀ u, (s.pc u).len = 0
    · exact (h.rest hrest).1.separate
    · push Not at hrest
      obtain ⟨u, hu⟩ := hrest
      cases hpc : s.pc u with
      | idle => rw [hpc] at hu; exact absurd rfl hu
      | write i len pos pc =>
        rw [hpc] at hu
        exact (h.active u i len pos pc hpc (Nat.pos_of_ne_zero hu)).tiles.separate
  tiled hidle x := by
    obtain ⟨htiles, hpos⟩ := h.rest fun u => by rw [hidle u]; rfl
    rw [← hpos]
    exact htiles.covers_iff
  position hidle := (h.rest fun u => by rw [hidle u]; rfl).2

omit [DecidableEq U] in
/-- What is known of another call in progress stays, when no range was requested and no position
or length was added to. -/
theorem Running.congr {len pos : ℕ} {pc : LoopPc} (h : Running fd p s len pos pc)
    (hcur : s'.proc.curPos fd = s.proc.curPos fd) (hlens : s'.lens.sum = s.lens.sum)
    (hranges : s'.ranges = s.ranges) : Running fd p s' len pos pc where
  pos_eq := h.pos_eq.trans hcur.symm
  sum_eq := by
    rw [hcur, hlens]
    exact h.sum_eq
  len_lt := h.len_lt
  room := h.room
  tiles := by
    rw [hranges]
    exact h.tiles

omit [DecidableEq U] in
/-- While a call for a positive length is in progress, no other one is. -/
theorem PosInv.others (h : PosInv fd p s) (hu : 0 < (s.pc u).len) : ∀ v, v ≠ u → (s.pc v).len = 0 := by
  intro v hv
  by_contra hne
  exact hv (h.alone v u (Nat.pos_of_ne_zero hne) hu)

/-- One ULT goes to `x`. A call of positive length of another one is left as it is. -/
theorem PosInv.update (h : PosInv fd p s) {x : WritePc} (hpc : s'.pc = Function.update s.pc u x)
    (hhook : s'.proc.hookfds = s.proc.hookfds) (hsmall : s'.proc.curPos fd < 2 ^ 64)
    (halone : 0 < x.len → ∀ v, v ≠ u → (s.pc v).len = 0)
    (hloop : ∀ i len pos pc, x = .write i len pos pc →
      writeBlksz pos len ∣ len ∧ LoopInv (writeBlksz pos len) len pc)
    (hactive : ∀ i len pos pc, x = .write i len pos pc → 0 < len → Running fd p s' len pos pc)
    (hothers : ∀ v, v ≠ u → 0 < (s.pc v).len → s'.proc.curPos fd = s.proc.curPos fd ∧
      s'.lens.sum = s.lens.sum ∧ s'.ranges = s.ranges)
    (hrest : x.len = 0 → (∀ v, v ≠ u → (s.pc v).len = 0) →
      Tiles s'.ranges p (s'.proc.curPos fd) ∧ s'.proc.curPos fd = p + s'.lens.sum) :
    PosInv fd p s' where
  hooked := by
    unfold Hooked
    rw [hhook]
    exact h.hooked
  small := hsmall
  alone v w hv hw := by
    rw [hpc] at hv hw
    by_cases hvu : v = u
    · by_cases hwu : w = u
      · exact hvu.trans hwu.symm
      · rw [hvu, Function.update_self] at hv
        rw [Function.update_of_ne hwu] at hw
        exact absurd (halone hv w hwu) hw.ne'
    · rw [Function.update_of_ne hvu] at hv
      by_cases hwu : w = u
      · rw [hwu, Function.update_self] at hw
        exact absurd (halone hw v hvu) hv.ne'
      · rw [Function.update_of_ne hwu] at hw
        exact h.alone v w hv hw
  loop v i len pos pc hv := by
    rw [hpc] at hv
    by_cases hvu : v = u
    · rw [hvu, Function.update_self] at hv
      exact hloop i len pos pc hv
    · rw [Function.update_of_ne hvu] at hv
      exact h.loop v i len pos pc hv
  active v i len pos pc hv hpos := by
    rw [hpc] at hv
    by_cases hvu : v = u
    · rw [hvu, Function.update_self] at hv
      exact hactive i len pos pc hv hpos
    · rw [Function.update_of_ne hvu] at hv
      obtain ⟨hcur, hlens, hranges⟩ := hothers v hvu (by rw [hv]; exact hpos)
      exact (h.active v i len pos pc hv hpos).congr hcur hlens hranges
  rest hall := by
    rw [hpc] at hall
    apply hrest
    · have := hall u
      rwa [Function.update_self] at this
    · intro v hvu
      have := hall v
      rwa [Function.update_of_ne hvu] at this

/-- A call goes on. When it is for a positive length, its requests still lie end to end. -/
theorem PosInv.move (h : PosInv fd p s) {i len pos : ℕ} {pc pc' : LoopPc}
    (hpc : s.pc u = .write i len pos pc) (hpc' : s'.pc = Function.update s.pc u (.write i len pos pc'))
    (hhook : s'.proc.hookfds = s.proc.hookfds) (hcur : s'.proc.curPos = s.proc.curPos)
    (hlens : s'.lens = s.lens) (hloop : LoopInv (writeBlksz pos len) len pc')
    (htiles : 0 < len → Tiles s'.ranges p (pos + progress len pc'))
    (hzero : len = 0 → s'.ranges = s.ranges) : PosInv fd p s' := by
  have hlen : (s.pc u).len = len := by rw [hpc]; rfl
  refine h.update hpc' hhook ?_ ?_ ?_ ?_ ?_ ?_
  · rw [hcur]
    exact h.small
  · exact fun hpos => h.others (hlen.symm ▸ hpos)
  · intro i' len' pos' pc'' hx
    injection hx with _ hl hp hpc''
    subst hl hp hpc''
    exact ⟨(h.loop u i len pos pc hpc).1, hloop⟩
  · intro i' len' pos' pc'' hx hpos
    injection hx with _ hl hp hpc''
    subst hl hp hpc''
    obtain ⟨hpos_eq, hsum, hlt, hroom, -⟩ := h.active u i len pos pc hpc hpos
    rw [← hcur] at hpos_eq hsum
    rw [← hlens] at hsum
    exact ⟨hpos_eq, hsum, hlt, hroom, htiles hpos⟩
  · intro v hvu hv
    have hu : (s.pc u).len = 0 := h.others hv u (Ne.symm hvu)
    exact ⟨congrFun hcur fd, congrArg List.sum hlens, hzero (hlen.symm.trans hu)⟩
  · intro hx hall
    have hall' : ∀ v, (s.pc v).len = 0 := by
      intro v
      by_cases hvu : v = u
      · rw [hvu, hlen]
        exact hx
      · exact hall v hvu
    rw [hcur, hlens, hzero hx]
    exact h.rest hall'

theorem tableBytes : maxBlocksPerFile * blockSize = 2 ^ 38 := by
  simp [maxBlocksPerFile, blockSize]

/-- A request of a serial call is for the next bytes of its range. -/
theorem PosInv.request (h : PosInv fd p s) {deg i len pos rqK j : ℕ} {pc pc' : LoopPc}
    (hpc : s.pc u = .write i len pos pc)
    (hs : writeStep deg (writeBlksz pos len) len pc = (pc', some (.request rqK j))) :
    ((s.request i len pos j).map fun s => s.goto u (.write i len pos pc')).Safe (PosInv fd p) := by
  obtain ⟨hdvd, hloop⟩ := h.loop u i len pos pc hpc
  obtain ⟨hj, hnext, hle, hlen⟩ := progress_request hloop hdvd hs
  obtain ⟨-, -, hlt, hroom, htiles⟩ := h.active u i len pos pc hpc hlen
  have hpos := writeBlksz_pos pos len
  have hoff : (pos + j) % 2 ^ 64 = pos + j := by
    rw [tableBytes] at hroom
    exact Nat.mod_eq_of_lt (by omega)
  have hblock := (iBlock_of_lt (show pos + j < maxBlocksPerFile * blockSize by omega)).2
  have hreq : reqLen (writeBlksz pos len) len j = writeBlksz pos len := by
    unfold reqLen
    split_ifs
    · rfl
    · omega
  have hloop' : LoopInv (writeBlksz pos len) len pc' := by
    have hmove : LoopInv (writeBlksz pos len) len (writeStep deg (writeBlksz pos len) len pc).1 :=
      loopInv_next hloop hdvd
    rwa [hs] at hmove
  rw [Writers.request, if_pos (by omega), hoff, myfsGetLba_write _ _ hblock, hreq]
  split
  · contradiction
  · trivial
  · refine h.move hpc rfl rfl rfl rfl hloop' (fun _ => ?_) (fun hzero => absurd hzero hlen.ne')
    change Tiles ((s.requests ++ [_]).map WriteReq.range) p _
    rw [List.map_append, hnext, ← Nat.add_assoc, hj]
    exact htiles.snoc _

/-- A step of a call in progress that has not come to its end. -/
theorem PosInv.next (h : PosInv fd p s) {deg i len pos : ℕ} {pc : LoopPc}
    (hpc : s.pc u = .write i len pos pc) (hdone : pc ≠ .done) (check : Bool) :
    (s.next deg fd u check).Safe (PosInv fd p) := by
  obtain ⟨hdvd, hloop⟩ := h.loop u i len pos pc hpc
  have hloop' : LoopInv (writeBlksz pos len) len (writeStep deg (writeBlksz pos len) len pc).1 :=
    loopInv_next hloop hdvd
  have htiles : 0 < len → Tiles s.ranges p (pos + progress len pc) :=
    fun hlen => (h.active u i len pos pc hpc hlen).tiles
  have hnext : s.next deg fd u check =
      match writeStep deg (writeBlksz pos len) len pc with
      | (pc', none) => .ok (s.goto u (.write i len pos pc'))
      | (pc', some (.request _ j)) =>
        (s.request i len pos j).map fun s => s.goto u (.write i len pos pc')
      | (pc', some (.check _)) =>
        .ok (if check then s.goto u (.write i len pos pc')
          else s.yield_ u (.write i len pos pc)) := by
    rw [Writers.next, hpc]
    cases pc with
    | done => exact absurd rfl hdone
    | _ => rfl
  rw [hnext]
  cases hs : writeStep deg (writeBlksz pos len) len pc with
  | mk pc' act =>
    rw [hs] at hloop'
    cases act with
    | none =>
      have hprog := progress_quiet hloop hs fun _ _ hact => (by cases hact)
      exact h.move hpc rfl rfl rfl rfl hloop' (fun hlen => hprog ▸ htiles hlen) fun _ => rfl
    | some act =>
      cases act with
      | request rqK j => exact h.request hpc hs
      | check k =>
        have hprog := progress_quiet hloop hs fun _ _ hact => (by cases hact)
        cases check with
        | true => exact h.move hpc rfl rfl rfl rfl hloop' (fun hlen => hprog ▸ htiles hlen) fun _ => rfl
        | false => exact h.move hpc rfl rfl rfl rfl hloop htiles fun _ => rfl

/-- A call returns. -/
theorem PosInv.return_ (h : PosInv fd p s) {deg i len pos : ℕ} (hpc : s.pc u = .write i len pos .done)
    (check : Bool) : (s.next deg fd u check).Safe (PosInv fd p) := by
  have hlen : (s.pc u).len = len := by rw [hpc]; rfl
  have hnext : s.next deg fd u check =
      .ok (((s.setFs (myfsDecrementRef s.proc.fs i)).advance fd len).yield_ u .idle) := by
    rw [Writers.next, hpc]
  have hlt : s.proc.curPos fd + len < 2 ^ 64 := by
    rcases Nat.eq_zero_or_pos len with hlen | hlen
    · rw [hlen]
      exact h.small
    · obtain ⟨hpos, -, -, hroom, -⟩ := h.active u i len pos .done hpc hlen
      rw [tableBytes, hpos] at hroom
      omega
  have hcur : (((s.setFs (myfsDecrementRef s.proc.fs i)).advance fd len).yield_ u .idle).proc.curPos fd =
      s.proc.curPos fd + len := by
    change Function.update s.proc.curPos fd ((s.proc.curPos fd + len) % 2 ^ 64) fd = _
    rw [Function.update_self]
    exact Nat.mod_eq_of_lt hlt
  rw [hnext]
  refine h.update rfl rfl ?_ ?_ ?_ ?_ ?_ ?_
  · rw [hcur]
    exact hlt
  · exact fun hx => absurd hx (Nat.lt_irrefl 0)
  · exact fun _ _ _ _ hx => by cases hx
  · exact fun _ _ _ _ hx => by cases hx
  · intro v hvu hv
    have hu : (s.pc u).len = 0 := h.others hv u (Ne.symm hvu)
    rw [hcur, ← hlen, hu]
    exact ⟨rfl, rfl, rfl⟩
  · intro _ hall
    rw [hcur]
    rcases Nat.eq_zero_or_pos len with hzero | hpos
    · have hall' : ∀ v, (s.pc v).len = 0 := by
        intro v
        by_cases hvu : v = u
        · rw [hvu, hlen]
          exact hzero
        · exact hall v hvu
      rw [hzero]
      exact h.rest hall'
    · obtain ⟨hpos, hsum, -, -, htiles⟩ := h.active u i len pos .done hpc hpos
      rw [hpos] at htiles
      exact ⟨htiles, hsum⟩

/-- The route of a hooked descriptor. -/
theorem route_hooked {q : Process N} (h : Hooked q fd) :
    ∃ i, route q true .write fd = some (.myfs i) := by
  refine ⟨q.hookfds (fd : ℤ).toNat, ?_⟩
  change byHookfd q fd = _
  rw [byHookfd, if_pos h.1, if_pos h.2]

/-- A serial call starts at the end of what was written. -/
theorem PosInv.start (h : PosInv fd p s) {len : ℕ} (hidle : s.pc u = .idle) (hdvd : 512 ∣ len)
    (hC : (WriteStep.write u len).Serial fd s) : (s.sysWrite fd u len).Safe (PosInv fd p) := by
  obtain ⟨i, hroute⟩ := route_hooked h.hooked
  rw [Writers.sysWrite, hroute]
  dsimp only
  split_ifs
  · have hu : (s.pc u).len = 0 := by rw [hidle]; rfl
    have hsum : (s.lens ++ [len]).sum = s.lens.sum + len := by simp
    refine h.update rfl rfl h.small ?_ ?_ ?_ ?_ ?_
    · intro hpos v _
      rcases hC with hzero | ⟨hall, -⟩
      · exact absurd hzero (Nat.pos_iff_ne_zero.mp hpos)
      · exact hall v
    · intro i' len' pos' pc' hx
      injection hx with _ hl hp hpc'
      subst hl hp hpc'
      exact ⟨writeBlksz_dvd hdvd, Nat.dvd_zero _, Nat.zero_le _⟩
    · intro i' len' pos' pc' hx hpos
      injection hx with _ hl hp hpc'
      subst hl hp hpc'
      rcases hC with hzero | ⟨hall, hlt, hroom⟩
      · exact absurd hzero hpos.ne'
      · obtain ⟨htiles, hcur⟩ := h.rest hall
        refine ⟨rfl, ?_, hlt, hroom, htiles⟩
        change s.proc.curPos fd + len = p + (s.lens ++ [len]).sum
        rw [hsum, hcur, Nat.add_assoc]
    · intro v _ hv
      rcases hC with hzero | ⟨hall, -⟩
      · refine ⟨rfl, ?_, rfl⟩
        change (s.lens ++ [len]).sum = _
        rw [hsum, hzero, Nat.add_zero]
      · exact absurd (hall v) hv.ne'
    · intro hx hall
      have hzero : len = 0 := hx
      have hall' : ∀ v, (s.pc v).len = 0 := by
        intro v
        by_cases hvu : v = u
        · rw [hvu]
          exact hu
        · exact hall v hvu
      obtain ⟨htiles, hcur⟩ := h.rest hall'
      refine ⟨htiles, ?_⟩
      change s.proc.curPos fd = p + (s.lens ++ [len]).sum
      rw [hsum, hzero, Nat.add_zero]
      exact hcur
  · trivial

end Steps

/-! ### Runs -/

section Runs

variable {fd p : ℕ}

theorem posInv_step (deg : ℕ) (o : WriteStep U) (s : Writers U N) (h : PosInv fd p s)
    (hA : o.Admissible s) (hC : o.Serial fd s) : (o.step deg fd s).Safe (PosInv fd p) := by
  cases o with
  | write u len => exact h.start hA.2.1 hA.2.2.1 hC
  | next u check =>
    cases hpc : s.pc u with
    | idle =>
      rw [WriteStep.step, Writers.next, hpc]
      exact h
    | write i len pos pc =>
      by_cases hdone : pc = .done
      · subst hdone
        exact h.return_ hpc check
      · exact h.next hpc hdone check

omit [DecidableEq U] in
theorem posInv_begin {q : Process N} (hfd : Hooked q fd) (hpos : q.curPos fd < 2 ^ 64) :
    PosInv fd (q.curPos fd) (.begin_ q : Writers U N) where
  hooked := hfd
  small := hpos
  alone _ _ hu := absurd hu (Nat.lt_irrefl 0)
  loop _ _ _ _ _ hu := by cases hu
  active _ _ _ _ _ hu := by cases hu
  rest _ := ⟨rfl, rfl⟩

/-- In every run where the calls that write come one after the other, their ranges lie end to end
and the position is behind them. -/
theorem placed_of_serial (writeDeg : ℕ) (q : Process N) (hfd : Hooked q fd)
    (hpos : q.curPos fd < 2 ^ 64) (steps : List (WriteStep U))
    (hA : Meets (WriteStep.step writeDeg fd) WriteStep.Admissible steps (.begin_ q))
    (hC : Meets (WriteStep.step writeDeg fd) (WriteStep.Serial fd) steps (.begin_ q)) :
    Always (WriteStep.step writeDeg fd) (Placed fd (q.curPos fd)) steps (.begin_ q) :=
  always_of_meets (fun _ h => h.placed) (fun o s h hs => posInv_step writeDeg o s h hs.1 hs.2)
    (posInv_begin hfd hpos) (hA.and hC)

instance (o : WriteStep U) (s : Writers U N) : Decidable (o.Admissible s) :=
  match o with
  | .write _ _ => inferInstanceAs (Decidable (_ ∧ _))
  | .next u _ => inferInstanceAs (Decidable (s.Scheduled u))

instance [Fintype U] (o : WriteStep U) (s : Writers U N) : Decidable (o.Serial fd s) :=
  match o with
  | .write _ _ => inferInstanceAs (Decidable (_ ∨ _))
  | .next _ _ => isTrue trivial

end Runs

/-- Descriptor 3 is that of an open file. -/
def opened : Process numBlocks where
  kernel := fun _ => none
  hookfds := fun fd => if fd = 3 then 0 else notUsedFd
  curPos := fun _ => 0
  fs := oneFile numBlocks one_lt_numBlocks

theorem opened_hooked : Hooked opened (3 : ℕ) := by
  refine ⟨⟨by decide, ?_⟩, by decide⟩
  simp [maxHookfd]

/-- A ULT writes 8192 bytes, and waits for the first of its two requests; then another one. -/
theorem serial_two : Always (WriteStep.step 8 3) (Placed 3 0)
    [.write 0 8192, .next 0 true, .next 0 true, .next 0 true, .next 0 false, .next 0 true, .next 0 true,
      .next 0 true, .next 0 true, .write 1 512, .next 1 true, .next 1 true, .next 1 true, .next 1 true,
      .next 1 true]
    (.begin_ opened : Writers (Fin 2) numBlocks) :=
  placed_of_serial 8 opened opened_hooked (by decide) _ (by decide +kernel) (by decide +kernel)

/-- The second ULT calls while the first one waits. -/
def overlapRun : List (WriteStep (Fin 2)) :=
  [.write 0 8192, .next 0 true, .next 0 true, .next 0 true, .next 0 false, .write 1 8192, .next 1 true,
    .next 1 true]

/-- Both write the range from 0 on. -/
theorem overlap_not_placed :
    Meets (WriteStep.step 8 3) WriteStep.Admissible overlapRun
        (.begin_ opened : Writers (Fin 2) numBlocks) ∧
      ¬ Always (WriteStep.step 8 3) (Placed 3 0) overlapRun
        (.begin_ opened : Writers (Fin 2) numBlocks) := by
  refine ⟨by decide +kernel, fun h => ?_⟩
  obtain ⟨s, hs, hranges⟩ : ∃ s, run (WriteStep.step 8 3) overlapRun
      (.begin_ opened : Writers (Fin 2) numBlocks) = .ok s ∧
        s.ranges = [(0, 4096), (4096, 4096), (0, 4096)] := by
    decide +kernel
  have hsep := (h.at_end hs).separate
  rw [hranges] at hsep
  exact absurd hsep (by decide)

end Pthabt.Hook
