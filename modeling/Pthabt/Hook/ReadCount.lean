import Mathlib.Algebra.BigOperators.Intervals
import Pthabt.Hook.FilePosition

/-! `SYS_read` and `pread64` on a hooked descriptor. `read_impl` cuts the length to what the file
has from the position on and returns nothing; `hook_function` returns the count that it was called
with, and `SYS_read` moves the position by it. One ULT makes the calls, one after the other. -/

namespace Pthabt.Hook

open Lib Run Myfs

/-- The two calls with their arguments. -/
inductive ReadOp where
  | read (fd count : ℕ)
  | pread64 (fd count pos : ℕ)
  deriving DecidableEq

variable {N : ℕ}

namespace ReadOp

def fd : ReadOp → ℕ
  | read fd _ | pread64 fd _ _ => fd

def count : ReadOp → ℕ
  | read _ count | pread64 _ count _ => count

def call : ReadOp → IoCall
  | read _ _ => .read
  | pread64 _ _ _ => .pread64

/-- The position that the call reads from. -/
def pos : ReadOp → Process N → ℕ
  | read fd _, q => q.curPos fd
  | pread64 _ _ pos, _ => pos

/-- `cur_pos` after the call: `SYS_read` adds its count. -/
def advance : ReadOp → (ℕ → ℕ) → ℕ → ℕ
  | read fd count, curPos => Function.update curPos fd ((curPos fd + count) % 2 ^ 64)
  | pread64 _ _ _, curPos => curPos

end ReadOp

/-- Where the ULT is: outside, or in `read_impl` with the length it goes on with. -/
inductive ReadPc where
  | idle
  | read (op : ReadOp) (hookfd pos len : ℕ) (pc : LoopPc)
  deriving DecidableEq

/-- The process and the place of the ULT; for how many bytes the request in `rid[k]` is, how many
bytes `read_impl` has stored, and what the last call returned. -/
structure Reader (N : ℕ) where
  proc : Process N
  pc : ReadPc
  rid : ℕ → ℕ
  stored : ℕ
  ret : Option ℕ

/-- 64 bits as a `loff_t`. -/
def toLoff (x : ℤ) : ℤ := Int.bmod x (2 ^ 64)

/-- The length that `read_impl` goes on with. The comparison is one of `size_t`s, so a sum below 0
or one that leaves `loff_t` is above the size of the file. -/
def clip (fileSize pos : ℕ) (len : ℤ) : ℤ :=
  if (fileSize : ℤ) < (pos + len) % 2 ^ 64 then toLoff (fileSize - pos) else len

/-- `clip` of numbers below the end of `loff_t`. -/
theorem clip_toNat {fileSize pos len : ℕ} (hsize : fileSize < 2 ^ 63) (hpos : pos < 2 ^ 63)
    (hlen : len < 2 ^ 63) : (clip fileSize pos len).toNat = readLen fileSize pos len := by
  have hsum : ((pos : ℤ) + len) % 2 ^ 64 = pos + len := Int.emod_eq_of_lt (by omega) (by omega)
  rw [clip, readLen, hsum]
  split_ifs with h1 h2 h2
  · have hloff : toLoff ((fileSize : ℤ) - pos) = (fileSize : ℤ) - pos :=
      Int.bmod_eq_of_le_mul_two (by omega) (by omega)
    rw [hloff]
    omega
  · omega
  · omega
  · exact Int.toNat_natCast len

namespace Reader

def setFs (s : Reader N) (fs : Fs N) : Reader N := { s with proc := { s.proc with fs := fs } }

/-- The beginning of `read_impl`. -/
def readImpl (op : ReadOp) (hookfd : ℕ) (len : ℤ) (pos : ℕ) (s : Reader N) : Outcome (Reader N) :=
  let s := s.setFs (myfsIncrementRef s.proc.fs hookfd).1
  let len := clip (myfsGetSize s.proc.fs.sb hookfd) pos len
  if pos % 512 = 0 then
    .ok { s with pc := .read op hookfd pos len.toNat (.outer 0), stored := 0, ret := none }
  else .abort s

/-- A call of a ULT. A descriptor that is not hooked goes to the kernel. -/
def hookRead (op : ReadOp) (s : Reader N) : Outcome (Reader N) :=
  match route s.proc true op.call op.fd with
  | none => .fault
  | some .kernel => .ok s
  | some (.myfs hookfd) => s.readImpl op hookfd.toNat (toLoff op.count) (op.pos s.proc)

/-- One request of `read_impl`, for the bytes at `buf + j`; then `j += blksz`. -/
def request (hookfd pos len rqK j : ℕ) (s : Reader N) : Outcome (Reader N) :=
  if j + readBlksz pos len < 2 ^ 31 then
    match myfsGetLba s.proc.fs.sb hookfd ((pos + j) % 2 ^ 64) false with
    | none => .fault
    | some (_, none) => .abort s
    | some (_, some _) =>
      .ok { s with rid := Function.update s.rid rqK (reqLen (readBlksz pos len) len j) }
  else .fault

/-- The end of `read_impl` and of `hook_function`. -/
def return_ (op : ReadOp) (hookfd : ℕ) (s : Reader N) : Reader N where
  proc :=
    { s.proc with
      fs := myfsDecrementRef s.proc.fs hookfd
      curPos := op.advance s.proc.curPos }
  pc := .idle
  rid := s.rid
  stored := s.stored
  ret := some op.count

/-- The next step of the ULT. When it waits, `check` is what `nvme_check` returns. -/
def next (readDeg : ℕ) (check : Bool) (s : Reader N) : Outcome (Reader N) :=
  match s.pc with
  | .idle => .ok s
  | .read op hookfd _ _ .done => .ok (s.return_ op hookfd)
  | .read op hookfd pos len pc =>
    match readStep readDeg (readBlksz pos len) len pc with
    | (pc', none) => .ok { s with pc := .read op hookfd pos len pc' }
    | (pc', some (.request rqK j)) =>
      (s.request hookfd pos len rqK j).map fun s => { s with pc := .read op hookfd pos len pc' }
    | (pc', some (.check k)) =>
      .ok (if check then
          { s with pc := .read op hookfd pos len pc', stored := s.stored + s.rid k }
        else s)

end Reader

inductive ReadStep where
  | call (op : ReadOp)
  | next (check : Bool)

def ReadStep.step (readDeg : ℕ) : ReadStep → Reader N → Outcome (Reader N)
  | .call op, s => s.hookRead op
  | .next check, s => s.next readDeg check

namespace ReadOp

/-- The file that the call is for. -/
def slot (op : ReadOp) (q : Process N) : ℕ := (q.hookfds op.fd).toNat

def size (op : ReadOp) (q : Process N) : ℕ := myfsGetSize q.fs.sb (op.slot q)

/-- The length that the loop of the call covers. -/
def len (op : ReadOp) (q : Process N) : ℕ := (clip (op.size q) (op.pos q) (toLoff op.count)).toNat

/-- The positions when `SYS_read` has moved its own by `n`. -/
def moved : ReadOp → (ℕ → ℕ) → ℕ → ℕ → ℕ
  | read fd _, curPos, n => Function.update curPos fd (curPos fd + n)
  | pread64 _ _ _, curPos, _ => curPos

end ReadOp

/-- The call returned what it has stored, which is all that the file has of the range, and only
`SYS_read` moved the position, by as much. -/
structure Reported (op : ReadOp) (q : Process N) (s : Reader N) : Prop where
  stored : s.stored = min op.count (op.size q - op.pos q)
  ret : s.ret = some s.stored
  position : s.proc.curPos = op.moved q.curPos s.stored

/-- `myfs_get_lba` finds a block for the byte. -/
def HasBlock (sb : Superblock N) (i offset : ℕ) : Prop :=
  iBlock offset < maxBlocksPerFile ∧ (sb.file i).block (iBlock offset) ≠ inactiveBlock

/-- The end of the last sector is an `int`. -/
def Countable (len : ℕ) : Prop := (len + 511) / 512 * 512 < 2 ^ 31

/-- Nothing is read, or all of the range is in the file and in mapped blocks, and its last sector ends
where an `int` can count. -/
def ReadOp.Within (op : ReadOp) (q : Process N) : Prop :=
  op.count = 0 ∨ op.pos q + op.count ≤ op.size q ∧ Countable op.count ∧
    ∀ x < op.count, HasBlock q.fs.sb (op.slot q) (op.pos q + x)

/-! ### The loop of one call -/

/-- The bytes of the requests that the call is still to wait for. -/
def pending (rid : ℕ → ℕ) : LoopPc → ℕ
  | .inner rqK _ => ∑ i ∈ Finset.Ico 0 rqK, rid i
  | .wait k rqK _ => ∑ i ∈ Finset.Ico k rqK, rid i
  | .outer _ | .done => 0

/-- Invariant of the loop: what was requested was stored or is waited for. -/
structure ReadProgress (sb : Superblock N) (deg hookfd pos len stored : ℕ) (rid : ℕ → ℕ) (pc : LoopPc) :
    Prop where
  multiple : AtMultiple (readBlksz pos len) pc
  batch_le : batch pc ≤ deg
  bytes : stored + pending rid pc = min (progress len pc) len
  blocks : ∀ x < len, x < progress len pc → HasBlock sb hookfd (pos + x)
  counted : len ≤ progress len pc → Countable len

section Loop

variable {sb : Superblock N} {deg hookfd pos len stored : ℕ} {rid : ℕ → ℕ} {pc pc' : LoopPc} {rqK j : ℕ}

theorem readProgress_begin : ReadProgress sb deg hookfd pos len 0 rid (.outer 0) where
  multiple := Nat.dvd_zero _
  batch_le := Nat.zero_le deg
  bytes := (Nat.zero_min len).symm
  blocks _ _ hx := absurd hx (Nat.not_lt_zero _)
  counted hle := by
    have hzero : len = 0 := Nat.le_zero.mp hle
    rw [hzero, Countable]
    decide

/-- Tests move neither the bytes that were requested nor those that are waited for. -/
theorem readStep_pending (rid : ℕ → ℕ) (hs : readStep deg (readBlksz pos len) len pc = (pc', none)) :
    min (progress len pc') len = min (progress len pc) len ∧ pending rid pc' = pending rid pc := by
  cases pc with
  | outer j =>
    injection hs with hpc _
    subst hpc
    split_ifs with hj
    · exact ⟨rfl, by simp only [pending, Finset.Ico_self, Finset.sum_empty]⟩
    · refine ⟨?_, rfl⟩
      simp only [progress]
      omega
  | inner rqK j =>
    simp only [readStep] at hs
    split_ifs at hs with h1 h2
    · injection hs with hpc _
      subst hpc
      exact ⟨rfl, rfl⟩
    · injection hs with _ hact
      cases hact
    · injection hs with hpc _
      subst hpc
      exact ⟨rfl, rfl⟩
  | wait k rqK j =>
    simp only [readStep] at hs
    split_ifs at hs with hk
    · injection hs with _ hact
      cases hact
    · injection hs with hpc _
      subst hpc
      exact ⟨rfl, (Finset.sum_eq_zero fun i hi => by rw [Finset.mem_Ico] at hi; omega).symm⟩
  | done =>
    injection hs with hpc _
    subst hpc
    exact ⟨rfl, rfl⟩

theorem ReadProgress.quiet (h : ReadProgress sb deg hookfd pos len stored rid pc)
    (hs : readStep deg (readBlksz pos len) len pc = (pc', none)) :
    ReadProgress sb deg hookfd pos len stored rid pc' := by
  obtain ⟨hprog, hpend⟩ := readStep_pending rid hs
  have hmult := atMultiple_next deg len h.multiple
  have hbatch := readStep_batch_le (readBlksz pos len) len h.batch_le
  rw [hs] at hmult hbatch
  refine ⟨hmult, hbatch, ?_, fun x hx hlt => h.blocks x hx (by omega), fun hle => h.counted (by omega)⟩
  rw [hpend, hprog]
  exact h.bytes

/-- A request is for the next bytes, at a multiple of its step. -/
theorem ReadProgress.request_at (h : ReadProgress sb deg hookfd pos len stored rid pc)
    (hs : readStep deg (readBlksz pos len) len pc = (pc', some (.request rqK j))) :
    pc = .inner rqK j ∧ pc' = .inner (rqK + 1) (j + readBlksz pos len) ∧ readBlksz pos len ∣ j ∧
      j < len := by
  cases pc with
  | inner rqK' j' =>
    have hdvd := h.multiple
    simp only [readStep] at hs
    split_ifs at hs with h1 h2
    · injection hs with _ hact
      cases hact
    · injection hs with hpc hact
      injection hact with hact
      injection hact with hk hj
      subst hpc hk hj
      exact ⟨rfl, rfl, hdvd, Nat.lt_of_not_le h2⟩
    · injection hs with _ hact
      cases hact
  | outer j' => cases hs
  | wait k rqK' j' =>
    simp only [readStep] at hs
    split_ifs at hs <;> cases hs
  | done => cases hs

/-- The places of the requests. -/
theorem readBlksz_cases (hdvd : readBlksz pos len ∣ j) (hlt : j < len) :
    (readBlksz pos len = len ∧ j = 0 ∧ pos % 4096 + len ≤ 4096) ∨
      (readBlksz pos len = 512 ∧ 512 ∣ j) ∨
        (readBlksz pos len = 4096 ∧ 4096 ∣ j ∧ 4096 ∣ len ∧ 4096 ∣ pos) := by
  unfold readBlksz writeBlksz Nvme.blksz at hdvd ⊢
  split_ifs at hdvd ⊢ with h1 h2
  · exact .inl ⟨rfl, Nat.eq_zero_of_dvd_of_lt hdvd hlt, h1⟩
  · exact .inr (.inl ⟨rfl, hdvd⟩)
  · push Not at h2
    exact .inr (.inr ⟨rfl, hdvd, Nat.dvd_of_mod_eq_zero h2.1, Nat.dvd_of_mod_eq_zero h2.2⟩)

/-- A request does not go beyond the last sector of the range. -/
theorem add_readBlksz_le (hdvd : readBlksz pos len ∣ j) (hlt : j < len) :
    j + readBlksz pos len ≤ (len + 511) / 512 * 512 := by
  rcases readBlksz_cases hdvd hlt with ⟨hb, hj, hle⟩ | ⟨hb, hj⟩ | ⟨hb, hj, hlen, -⟩
  · rw [hb]
    omega
  · rw [hb]
    omega
  · rw [hb]
    omega

/-- The last request is counted when the last sector of the range is. -/
theorem counted_of_last (hdvd : readBlksz pos len ∣ j) (hlt : j < len)
    (hle : len ≤ j + readBlksz pos len) (hcount : j + readBlksz pos len < 2 ^ 31) :
    Countable len := by
  unfold Countable
  rcases readBlksz_cases hdvd hlt with ⟨hb, hj, hshort⟩ | ⟨hb, hj⟩ | ⟨hb, hj, hlen, -⟩
  · omega
  · rw [hb] at hle hcount
    omega
  · rw [hb] at hle hcount
    omega

/-- The bytes of a request lie in one block. -/
theorem iBlock_of_request (hpos : pos % 512 = 0) (hdvd : readBlksz pos len ∣ j) (hlt : j < len) {x : ℕ}
    (hj : j ≤ x) (hx : x < j + readBlksz pos len) : iBlock (pos + x) = iBlock (pos + j) := by
  have hblock : (pos + x) / 2097152 = (pos + j) / 2097152 := by
    rcases readBlksz_cases hdvd hlt with ⟨hb, hzero, hshort⟩ | ⟨hb, hj⟩ | ⟨hb, hj, -, hpos⟩
    · rw [hb] at hx
      omega
    · rw [hb] at hx
      omega
    · rw [hb] at hx
      omega
  have hsize : blockSize = 2097152 := by simp [blockSize]
  rw [iBlock, iBlock, hsize, hblock]

theorem ReadProgress.request (h : ReadProgress sb deg hookfd pos len stored rid pc)
    (hpos : pos % 512 = 0)
    (hs : readStep deg (readBlksz pos len) len pc = (pc', some (.request rqK j)))
    (hcount : j + readBlksz pos len < 2 ^ 31) (hblock : HasBlock sb hookfd (pos + j)) :
    ReadProgress sb deg hookfd pos len stored
      (Function.update rid rqK (reqLen (readBlksz pos len) len j)) pc' := by
  have hmult := atMultiple_next deg len h.multiple
  have hbatch := readStep_batch_le (readBlksz pos len) len h.batch_le
  rw [hs] at hmult hbatch
  obtain ⟨rfl, rfl, hdvd, hlt⟩ := h.request_at hs
  refine ⟨hmult, hbatch, ?_, ?_, fun hle => counted_of_last hdvd hlt hle hcount⟩
  · have hold : ∑ i ∈ Finset.Ico 0 rqK,
        Function.update rid rqK (reqLen (readBlksz pos len) len j) i = ∑ i ∈ Finset.Ico 0 rqK, rid i :=
      Finset.sum_congr rfl fun i hi =>
        Function.update_of_ne (Nat.ne_of_lt (Finset.mem_Ico.mp hi).2) _ _
    have hbytes := h.bytes
    simp only [pending, progress] at hbytes ⊢
    rw [Finset.sum_Ico_succ_top (Nat.zero_le rqK), hold, Function.update_self, reqLen_eq_min]
    omega
  · intro x hx hxj
    by_cases hxlt : x < j
    · exact h.blocks x hx hxlt
    · rw [HasBlock, iBlock_of_request hpos hdvd hlt (Nat.le_of_not_lt hxlt) hxj]
      exact hblock

/-- A request was completed. -/
theorem ReadProgress.check (h : ReadProgress sb deg hookfd pos len stored rid pc) {k : ℕ}
    (hs : readStep deg (readBlksz pos len) len pc = (pc', some (.check k))) :
    ReadProgress sb deg hookfd pos len (stored + rid k) rid pc' := by
  have hmult := atMultiple_next deg len h.multiple
  have hbatch := readStep_batch_le (readBlksz pos len) len h.batch_le
  rw [hs] at hmult hbatch
  cases pc with
  | wait k' rqK' j' =>
    simp only [readStep] at hs
    split_ifs at hs with hk
    · injection hs with hpc hact
      injection hact with hact
      injection hact with hact
      subst hpc hact
      refine ⟨hmult, hbatch, ?_, h.blocks, h.counted⟩
      have hbytes := h.bytes
      simp only [pending, progress] at hbytes ⊢
      rw [Finset.sum_eq_sum_Ico_succ_bot hk] at hbytes
      omega
    · injection hs with _ hact
      cases hact
  | inner rqK' j' =>
    simp only [readStep] at hs
    split_ifs at hs
    · injection hs with _ hact
      cases hact
    · injection hs with _ hact
      injection hact with hact
      cases hact
    · injection hs with _ hact
      cases hact
  | outer j' => cases hs
  | done => cases hs

/-- At the end everything was stored. -/
theorem ReadProgress.at_end (h : ReadProgress sb deg hookfd pos len stored rid .done) :
    stored = len ∧ (∀ x < len, HasBlock sb hookfd (pos + x)) ∧ Countable len := by
  have hbytes := h.bytes
  simp only [pending, progress, Nat.min_self, Nat.add_zero] at hbytes
  exact ⟨hbytes, fun x hx => h.blocks x hx hx, h.counted le_rfl⟩

end Loop

/-! ### Calls -/

section Calls

variable {deg : ℕ} {op : ReadOp} {q : Process N} {s : Reader N}

/-- The call of `op` in the process `q` is in progress. -/
structure CallAt (deg : ℕ) (op : ReadOp) (q : Process N) (s : Reader N) (pc : LoopPc) : Prop where
  at_ : s.pc = .read op (op.slot q) (op.pos q) (op.len q) pc
  sb : s.proc.fs.sb = q.fs.sb
  curPos : s.proc.curPos = q.curPos
  loop : ReadProgress q.fs.sb deg (op.slot q) (op.pos q) (op.len q) s.stored s.rid pc

/-- The call has returned. -/
structure CallDone (op : ReadOp) (q : Process N) (s : Reader N) : Prop where
  at_ : s.pc = .idle
  stored : s.stored = op.len q
  ret : s.ret = some op.count
  curPos : s.proc.curPos = op.advance q.curPos
  blocks : ∀ x < op.len q, HasBlock q.fs.sb (op.slot q) (op.pos q + x)
  counted : Countable (op.len q)

def CallInv (deg : ℕ) (op : ReadOp) (q : Process N) (s : Reader N) : Prop :=
  (∃ pc, CallAt deg op q s pc) ∨ CallDone op q s

theorem CallAt.goto {pc pc' : LoopPc} (h : CallAt deg op q s pc) {rid : ℕ → ℕ} {stored : ℕ}
    (hloop : ReadProgress q.fs.sb deg (op.slot q) (op.pos q) (op.len q) stored rid pc') :
    CallInv deg op q { s with pc := .read op (op.slot q) (op.pos q) (op.len q) pc', rid := rid, stored := stored } :=
  .inl ⟨pc', rfl, h.sb, h.curPos, hloop⟩

/-- The call returns. -/
theorem CallAt.return_ (h : CallAt deg op q s .done) : CallDone op q (s.return_ op (op.slot q)) := by
  obtain ⟨hstored, hblocks, hcounted⟩ := h.loop.at_end
  exact ⟨rfl, hstored, rfl, congrArg op.advance h.curPos, hblocks, hcounted⟩

/-- The steps of a call that has not come to its end. -/
theorem CallAt.next_eq {pc : LoopPc} (h : CallAt deg op q s pc) (hdone : pc ≠ .done) (check : Bool) :
    s.next deg check =
      match readStep deg (readBlksz (op.pos q) (op.len q)) (op.len q) pc with
      | (pc', none) => .ok { s with pc := .read op (op.slot q) (op.pos q) (op.len q) pc' }
      | (pc', some (.request rqK j)) =>
        (s.request (op.slot q) (op.pos q) (op.len q) rqK j).map fun s =>
          { s with pc := .read op (op.slot q) (op.pos q) (op.len q) pc' }
      | (pc', some (.check k)) =>
        .ok (if check then
            { s with
              pc := .read op (op.slot q) (op.pos q) (op.len q) pc'
              stored := s.stored + s.rid k }
          else s) := by
  rw [Reader.next, h.at_]
  cases pc with
  | done => exact absurd rfl hdone
  | _ => rfl

/-- `myfs_get_lba` finds an address exactly for a byte that has a block. -/
theorem getLba_read (sb : Superblock N) (i offset : ℕ) :
    myfsGetLba sb i offset false =
      if iBlock offset < maxBlocksPerFile then
        some (sb, if (sb.file i).block (iBlock offset) = inactiveBlock then none
          else some (lbaOf ((sb.file i).block (iBlock offset)) offset))
      else none := by
  simp only [myfsGetLba, Bool.false_eq_true, if_false]

/-- A request goes through when its end can be counted and its first byte has a block. -/
theorem request_ok {hookfd pos len rqK j : ℕ} (hcount : j + readBlksz pos len < 2 ^ 31)
    (hoff : (pos + j) % 2 ^ 64 = pos + j) (hblock : HasBlock s.proc.fs.sb hookfd (pos + j)) :
    s.request hookfd pos len rqK j =
      .ok { s with rid := Function.update s.rid rqK (reqLen (readBlksz pos len) len j) } := by
  rw [Reader.request, if_pos hcount, hoff, getLba_read, if_pos hblock.1, if_neg hblock.2]

theorem request_eq_ok {s' : Reader N} {hookfd pos len rqK j : ℕ}
    (h : s.request hookfd pos len rqK j = .ok s') :
    j + readBlksz pos len < 2 ^ 31 ∧ HasBlock s.proc.fs.sb hookfd ((pos + j) % 2 ^ 64) ∧
      s' = { s with rid := Function.update s.rid rqK (reqLen (readBlksz pos len) len j) } := by
  unfold Reader.request at h
  rw [getLba_read] at h
  by_cases hcount : j + readBlksz pos len < 2 ^ 31
  · rw [if_pos hcount] at h
    by_cases htable : iBlock ((pos + j) % 2 ^ 64) < maxBlocksPerFile
    · rw [if_pos htable] at h
      by_cases hblock : (s.proc.fs.sb.file hookfd).block (iBlock ((pos + j) % 2 ^ 64)) = inactiveBlock
      · rw [if_pos hblock] at h
        cases h
      · rw [if_neg hblock] at h
        cases h
        exact ⟨hcount, ⟨htable, hblock⟩, rfl⟩
    · rw [if_neg htable] at h
      cases h
  · rw [if_neg hcount] at h
    cases h

theorem offset_eq {pos step j : ℕ} (hpos : pos < 2 ^ 63) (hcount : j + step < 2 ^ 31) :
    (pos + j) % 2 ^ 64 = pos + j := Nat.mod_eq_of_lt (by omega)

/-- What is left of the call when it never has to wait. -/
def Reader.left (deg : ℕ) (s : Reader N) : ℕ :=
  match s.pc with
  | .idle => 0
  | .read _ _ _ len pc => stepsLeft deg len pc + 1

/-- A step keeps what is known of the call, and comes nearer to its end unless it has to wait. -/
theorem CallAt.next {pc : LoopPc} (h : CallAt deg op q s pc) (hpos : op.pos q < 2 ^ 63)
    (halign : op.pos q % 512 = 0) {check : Bool} {s' : Reader N} (hs : s.next deg check = .ok s') :
    CallInv deg op q s' ∧ (0 < deg → check = true → s'.left deg < s.left deg) := by
  have hleft : s.left deg = stepsLeft deg (op.len q) pc + 1 := by
    rw [Reader.left, h.at_]
  by_cases hdone : pc = .done
  · subst hdone
    rw [Reader.next, h.at_] at hs
    cases hs
    exact ⟨.inr h.return_, fun _ _ => by rw [hleft]; exact Nat.succ_pos _⟩
  · have hless : 0 < deg → stepsLeft deg (op.len q)
        (readStep deg (readBlksz (op.pos q) (op.len q)) (op.len q) pc).1 <
          stepsLeft deg (op.len q) pc := fun hdeg =>
      readStep_stepsLeft hdeg (fun hlen => readBlksz_pos _ hlen) h.loop.batch_le hdone
    rw [hleft]
    rw [h.next_eq hdone check] at hs
    cases hstep : readStep deg (readBlksz (op.pos q) (op.len q)) (op.len q) pc with
    | mk pc' act =>
      rw [hstep] at hs hless
      cases act with
      | none =>
        cases hs
        exact ⟨h.goto (h.loop.quiet hstep), fun hdeg _ => Nat.succ_lt_succ (hless hdeg)⟩
      | some act =>
        cases act with
        | request rqK j =>
          dsimp only at hs
          obtain ⟨s₁, hreq, rfl⟩ := Outcome.map_eq_ok hs
          obtain ⟨hcount, hblock, rfl⟩ := request_eq_ok hreq
          rw [h.sb, offset_eq hpos hcount] at hblock
          exact ⟨h.goto (h.loop.request halign hstep hcount hblock),
            fun hdeg _ => Nat.succ_lt_succ (hless hdeg)⟩
        | check k =>
          cases check with
          | false =>
            cases hs
            exact ⟨.inl ⟨pc, h⟩, fun _ hfalse => by cases hfalse⟩
          | true =>
            cases hs
            exact ⟨h.goto (h.loop.check hstep), fun hdeg _ => Nat.succ_lt_succ (hless hdeg)⟩

/-- A call whose range is in the file goes on. -/
theorem CallAt.next_ok {pc : LoopPc} (h : CallAt deg op q s pc) (hpos : op.pos q < 2 ^ 63)
    (hcounted : Countable (op.len q))
    (hblocks : ∀ x < op.len q, HasBlock q.fs.sb (op.slot q) (op.pos q + x)) (check : Bool) :
    ∃ s', s.next deg check = .ok s' := by
  by_cases hdone : pc = .done
  · subst hdone
    rw [Reader.next, h.at_]
    exact ⟨_, rfl⟩
  · rw [h.next_eq hdone check]
    cases hstep : readStep deg (readBlksz (op.pos q) (op.len q)) (op.len q) pc with
    | mk pc' act =>
      cases act with
      | none => exact ⟨_, rfl⟩
      | some act =>
        cases act with
        | request rqK j =>
          obtain ⟨-, -, hdvd, hlt⟩ := h.loop.request_at hstep
          have hcount : j + readBlksz (op.pos q) (op.len q) < 2 ^ 31 :=
            lt_of_le_of_lt (add_readBlksz_le hdvd hlt) hcounted
          dsimp only
          rw [request_ok hcount (offset_eq hpos hcount) (h.sb.symm ▸ hblocks j hlt)]
          exact ⟨_, rfl⟩
        | check k => exact ⟨_, rfl⟩

/-- A call on a hooked descriptor begins. -/
theorem hookRead_hooked (deg : ℕ) (hfd : Hooked s.proc op.fd) (halign : op.pos s.proc % 512 = 0) :
    ∃ s', s.hookRead op = .ok s' ∧ CallAt deg op s.proc s' (.outer 0) := by
  have hroute : route s.proc true op.call op.fd = some (.myfs (s.proc.hookfds op.fd)) := by
    have hby : byHookfd s.proc op.fd = some (.myfs (s.proc.hookfds op.fd)) := by
      rw [byHookfd, if_pos hfd.1, if_pos hfd.2, Int.toNat_natCast]
    cases op with
    | read fd count => exact hby
    | pread64 fd count pos => exact hby
  have hsb : (myfsIncrementRef s.proc.fs (op.slot s.proc)).1.sb = s.proc.fs.sb := by
    unfold myfsIncrementRef
    split_ifs <;> rfl
  rw [Reader.hookRead, hroute]
  dsimp only
  unfold Reader.readImpl
  dsimp only
  rw [if_pos halign]
  refine ⟨_, rfl, ⟨?_, hsb, rfl, readProgress_begin⟩⟩
  change ReadPc.read op (op.slot s.proc) (op.pos s.proc) (clip (myfsGetSize
    (myfsIncrementRef s.proc.fs (op.slot s.proc)).1.sb (op.slot s.proc)) (op.pos s.proc)
      (toLoff op.count)).toNat (.outer 0) = _
  rw [hsb]
  rfl

/-- The length of a call whose range is in the file. -/
theorem len_of_within (hcount : op.count < 2 ^ 64) (hpos : op.pos q < 2 ^ 63) (h : op.Within q) :
    op.len q = op.count := by
  unfold ReadOp.len clip
  rcases h with hzero | ⟨hle, hcounted, -⟩
  · have hloff : toLoff ((0 : ℕ) : ℤ) = 0 := by decide
    rw [hzero, hloff]
    split_ifs with hsize
    · have hbmod : toLoff ((op.size q : ℤ) - op.pos q) = (op.size q : ℤ) - op.pos q := by
        refine Int.bmod_eq_of_le_mul_two ?_ ?_
        · omega
        · omega
      rw [hbmod]
      omega
    · rfl
  · have hsize : op.size q < 2 ^ 64 := Nat.mod_lt _ (by decide)
    have hsmall : op.count < 2 ^ 31 := by
      unfold Countable at hcounted
      omega
    have hloff : toLoff (op.count : ℤ) = op.count := by
      refine Int.bmod_eq_of_le_mul_two ?_ ?_
      · omega
      · omega
    rw [hloff, if_neg (by omega), Int.toNat_natCast]

theorem CallDone.reported (h : CallDone op q s) (hlen : op.len q = op.count) (hpos : op.pos q < 2 ^ 63)
    (hwithin : op.Within q) : Reported op q s where
  stored := by
    have hle : op.count ≤ op.size q - op.pos q := by
      rcases hwithin with hzero | ⟨hle, -⟩ <;> omega
    rw [h.stored, hlen, Nat.min_eq_left hle]
  ret := by rw [h.ret, h.stored, hlen]
  position := by
    rw [h.curPos, h.stored, hlen]
    cases op with
    | read fd count =>
      have hsmall : q.curPos fd + count < 2 ^ 64 := by
        rcases hwithin with hzero | ⟨hle, -⟩
        · change count = 0 at hzero
          change q.curPos fd < 2 ^ 63 at hpos
          omega
        · exact lt_of_le_of_lt hle (Nat.mod_lt _ (by decide))
      change Function.update q.curPos fd ((q.curPos fd + count) % 2 ^ 64) = _
      rw [Nat.mod_eq_of_lt hsmall]
      rfl
    | pread64 fd count pos => rfl

/-- What was returned and stored shows that the range was in the file. -/
theorem CallDone.within (h : CallDone op q s) (hrep : Reported op q s) : op.Within q := by
  have hlen : op.len q = op.count := by
    have hret := hrep.ret
    rw [h.ret, h.stored] at hret
    exact (Option.some.inj hret).symm
  have hstored := hrep.stored
  rw [h.stored, hlen] at hstored
  by_cases hzero : op.count = 0
  · exact .inl hzero
  · refine .inr ⟨by omega, hlen ▸ h.counted, fun x hx => h.blocks x ?_⟩
    rw [hlen]
    exact hx

end Calls

section Runs

variable {deg : ℕ} {op : ReadOp} {q : Process N} {s : Reader N}

/-- A call that can always go on comes to its end. -/
theorem exists_callDone (hdeg : 0 < deg) (hpos : op.pos q < 2 ^ 63) (halign : op.pos q % 512 = 0) :
    ∀ n s, CallInv deg op q s → s.left deg ≤ n →
      (∀ checks, ∃ t, run (Reader.next deg) checks s = .ok t) →
        ∃ checks t, run (Reader.next deg) checks s = .ok t ∧ CallDone op q t := by
  intro n
  induction n with
  | zero =>
    intro s h hle _
    rcases h with ⟨pc, h⟩ | h
    · rw [Reader.left, h.at_] at hle
      exact absurd hle (Nat.not_succ_le_zero _)
    · exact ⟨[], s, rfl, h⟩
  | succ n ih =>
    intro s h hle hall
    rcases h with ⟨pc, h⟩ | h
    · obtain ⟨t, ht⟩ := hall [true]
      obtain ⟨s', hs', -⟩ := Outcome.bind_eq_ok ht
      obtain ⟨hinv, hless⟩ := h.next hpos halign hs'
      have hless := hless hdeg rfl
      obtain ⟨checks, t, ht, hret⟩ := ih s' hinv (by omega) fun checks => by
        obtain ⟨t, ht⟩ := hall (true :: checks)
        rw [run_cons, hs', Outcome.bind_ok] at ht
        exact ⟨t, ht⟩
      refine ⟨true :: checks, t, ?_, hret⟩
      rw [run_cons, hs', Outcome.bind_ok, ht]
    · exact ⟨[], s, rfl, h⟩

theorem callInv_next (hpos : op.pos q < 2 ^ 63) (halign : op.pos q % 512 = 0) {check : Bool}
    {s' : Reader N} (h : CallInv deg op q s) (hs : s.next deg check = .ok s') : CallInv deg op q s' := by
  rcases h with ⟨pc, h⟩ | h
  · exact (h.next hpos halign hs).1
  · rw [Reader.next, h.at_] at hs
    cases hs
    exact .inr h

/-- A call returns with the bytes that it has stored, which are all that the file has of the range,
and moves the position by as much, exactly when nothing is read or the range is in the file, in mapped
blocks, and can be counted. -/
theorem reported_iff_within (hdeg : 0 < deg) (hfd : Hooked s.proc op.fd) (hcount : op.count < 2 ^ 64)
    (hpos : op.pos s.proc < 2 ^ 63) (halign : op.pos s.proc % 512 = 0) :
    (∀ checks : List Bool, ∃ t, run (ReadStep.step deg) (.call op :: checks.map .next) s = .ok t ∧
        (t.pc = .idle → Reported op s.proc t)) ↔ op.Within s.proc := by
  obtain ⟨s₀, hs₀, hread⟩ := hookRead_hooked deg hfd halign
  have hrun : ∀ checks : List Bool, run (ReadStep.step deg) (.call op :: checks.map .next) s =
      run (Reader.next deg) checks s₀ := by
    intro checks
    rw [run_cons, ReadStep.step, hs₀, Outcome.bind_ok, run_map]
    rfl
  simp only [hrun]
  constructor
  · intro hall
    obtain ⟨checks, t, ht, hret⟩ := exists_callDone hdeg hpos halign _ s₀ (.inl ⟨_, hread⟩) le_rfl
      fun checks => (hall checks).imp fun t ht => ht.1
    obtain ⟨t', ht', hrep⟩ := hall checks
    rw [ht] at ht'
    cases ht'
    exact hret.within (hrep hret.at_)
  · intro hwithin checks
    have hlen := len_of_within hcount hpos hwithin
    obtain ⟨hcounted, hblocks⟩ : Countable (op.len s.proc) ∧
        ∀ x < op.len s.proc, HasBlock s.proc.fs.sb (op.slot s.proc) (op.pos s.proc + x) := by
      rw [hlen]
      rcases hwithin with hzero | ⟨-, hcounted, hblocks⟩
      · rw [hzero]
        exact ⟨by rw [Countable]; decide, fun x hx => absurd hx (Nat.not_lt_zero x)⟩
      · exact ⟨hcounted, hblocks⟩
    have hA : Meets (Reader.next deg) (fun _ _ => True) checks s₀ :=
      Meets.of_forall (fun _ _ => trivial) checks s₀
    obtain ⟨t, ht⟩ := exists_run_of_meets (I := CallInv deg op s.proc) (fun check s₁ h _ => by
      obtain ⟨s₂, hs₂⟩ : ∃ s₂, s₁.next deg check = .ok s₂ := by
        rcases h with ⟨pc, h⟩ | h
        · exact h.next_ok hpos hcounted hblocks check
        · exact ⟨s₁, by rw [Reader.next, h.at_]⟩
      exact ⟨s₂, hs₂, callInv_next hpos halign h hs₂⟩) (.inl ⟨_, hread⟩) hA
    refine ⟨t, ht, fun hidle => ?_⟩
    have hinv := run_inv_of_meets (I := CallInv deg op s.proc)
      (fun check s₁ s₂ h _ hs => callInv_next hpos halign h hs) (.inl ⟨_, hread⟩) hA ht
    rcases hinv with ⟨pc, h⟩ | h
    · rw [h.at_] at hidle
      cases hidle
    · exact h.reported hlen hpos hwithin

/-- The call in progress is for a positive count, and the last one has not returned 0. -/
def NeverZero (s : Reader N) : Prop :=
  (∀ op i pos len pc, s.pc = .read op i pos len pc → 0 < op.count) ∧ s.ret ≠ some 0

theorem NeverZero.next (hs₀ : NeverZero s) {check : Bool} {s' : Reader N}
    (hs : s.next deg check = .ok s') : NeverZero s' := by
  obtain ⟨h, hret⟩ := hs₀
  unfold Reader.next at hs
  split at hs
  next => cases hs; exact ⟨h, hret⟩
  next op i pos len hpc =>
    cases hs
    refine ⟨fun _ _ _ _ _ he => (by cases he), fun he => ?_⟩
    exact (h op i pos len _ hpc).ne' (Option.some.inj he)
  next op i pos len pc _ hpc =>
    have hmove : ∀ pc' op' i' pos' len' pc'', ReadPc.read op i pos len pc' = .read op' i' pos' len' pc'' →
        0 < op'.count := by
      intro pc' op' i' pos' len' pc'' he
      cases he
      exact h op i pos len pc hpc
    split at hs
    · cases hs
      exact ⟨hmove _, hret⟩
    · obtain ⟨s₁, hreq, rfl⟩ := Outcome.map_eq_ok hs
      obtain ⟨-, -, rfl⟩ := request_eq_ok hreq
      exact ⟨hmove _, hret⟩
    · cases check with
      | true =>
        cases hs
        exact ⟨hmove _, hret⟩
      | false =>
        cases hs
        exact ⟨h, hret⟩

/-- A ULT that waits for a read to return 0 waits for ever: no call for a positive count does. -/
theorem read_never_zero {steps : List ReadStep} {t : Reader N} (hidle : s.pc = .idle) (hret : s.ret = none)
    (hcounts : ∀ op, .call op ∈ steps → 0 < op.count) (ht : run (ReadStep.step deg) steps s = .ok t) :
    t.ret ≠ some 0 := by
  have hinv : NeverZero t := by
    have hA : Meets (ReadStep.step deg) (fun o _ => ∀ op, o = ReadStep.call op → 0 < op.count) steps s :=
      Meets.of_mem (fun o ho _ op he => hcounts op (by rwa [he] at ho)) s
    refine run_inv_of_meets (fun o s s' h hA hs => ?_) ?_ hA ht
    · cases o with
      | call op =>
        rw [ReadStep.step, Reader.hookRead] at hs
        split at hs
        · cases hs
        · cases hs
          exact h
        · unfold Reader.readImpl at hs
          dsimp only at hs
          split_ifs at hs
          cases hs
          refine ⟨fun op' i pos len pc hpc => ?_, nofun⟩
          cases hpc
          exact hA _ rfl
      | next check => exact h.next hs
    · rw [NeverZero, hidle, hret]
      exact ⟨nofun, nofun⟩
  exact hinv.2

end Runs

/-- Descriptor 3 is that of a file with one block. -/
def grown : Process numBlocks := { opened with fs := oneBlock numBlocks one_lt_numBlocks 0 }

/-- The first sector is in the file. -/
theorem first_sector_within : (ReadOp.pread64 3 512 0).Within grown := by
  have htab : 0 < maxBlocksPerFile := by simp [maxBlocksPerFile]
  have hfile : grown.fs.sb.file 0 = ⟨nameA, Function.update emptyTable 0 0, 1⟩ :=
    oneBlock_file numBlocks one_lt_numBlocks htab
  refine .inr ⟨?_, by rw [Countable]; decide, fun x hx => ?_⟩
  · change 0 + 512 ≤ (grown.fs.sb.file 0).nBlock * blockSize % 2 ^ 64
    rw [hfile]
    simp [blockSize]
  · have hzero : iBlock (0 + x) = 0 := by
      have hx : x < 512 := hx
      have hsize : blockSize = 2097152 := by simp [blockSize]
      rw [iBlock, Nat.zero_add, Nat.div_eq_of_lt (by omega), Nat.zero_mod]
    change iBlock (0 + x) < maxBlocksPerFile ∧ (grown.fs.sb.file 0).block (iBlock (0 + x)) ≠ inactiveBlock
    rw [hzero, hfile]
    exact ⟨htab, by simp [inactiveBlock]⟩

/-- The theorem at the first sector of a file. -/
theorem first_sector_reported : (ReadOp.pread64 3 512 0).pos grown = 0 ∧ ∀ checks : List Bool, ∃ t,
    run (ReadStep.step 256) (.call (.pread64 3 512 0) :: checks.map .next)
        (⟨grown, .idle, fun _ => 0, 0, none⟩ : Reader numBlocks) = .ok t ∧
      (t.pc = .idle → Reported (.pread64 3 512 0) grown t) :=
  ⟨rfl, (reported_iff_within (by decide) opened_hooked (by decide) (by decide) (by decide)).mpr
    first_sector_within⟩

/-- `SYS_read` of 512 bytes of an empty file stores nothing, returns 512, and moves the position. -/
theorem end_of_file_not_reported : ∃ t,
    run (ReadStep.step 256) [.call (.read 3 512), .next true, .next true]
        (⟨opened, .idle, fun _ => 0, 0, none⟩ : Reader numBlocks) = .ok t ∧
      t.pc = .idle ∧ t.stored = 0 ∧ t.ret = some 512 ∧ t.proc.curPos 3 = 512 ∧
        ¬ Reported (.read 3 512) opened t := by
  obtain ⟨t, ht, hidle, hstored, hret, hpos⟩ : ∃ t,
      run (ReadStep.step 256) [.call (.read 3 512), .next true, .next true]
          (⟨opened, .idle, fun _ => 0, 0, none⟩ : Reader numBlocks) = .ok t ∧
        (t.pc = .idle ∧ t.stored = 0 ∧ t.ret = some 512 ∧ t.proc.curPos 3 = 512) := by
    decide +kernel
  refine ⟨t, ht, hidle, hstored, hret, hpos, fun h => ?_⟩
  have hzero := h.ret
  rw [hret, hstored] at hzero
  cases hzero

end Pthabt.Hook
