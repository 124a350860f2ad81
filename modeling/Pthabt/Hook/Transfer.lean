import Pthabt.Myfs.Operations
import Pthabt.Nvme.Address

/-! The request loops of `read_impl` and `write_impl`. A loop issues up to `READ_DEG` or
`WRITE_DEG` requests, then waits for the request identifiers of that batch, and
starts again until the length is covered. Offsets and lengths are naturals; a
length that `read_impl` makes negative is 0 here, as both make no request. -/

namespace Pthabt.Hook

open Lib Myfs Nvme

/-- Where a loop is: the test of `while`, the test of the inner `for`, the wait for `rid[k]`, or
after the end. `rqK` is `rq_k`. -/
inductive LoopPc where
  | outer (j : ℕ)
  | inner (rqK j : ℕ)
  | wait (k rqK j : ℕ)
  | done
  deriving DecidableEq

/-- What one step of a loop does besides: the request at `buf + j`, stored in `rid[rqK]`, or
the wait for `rid[k]`. -/
inductive LoopAct where
  | request (rqK j : ℕ)
  | check (k : ℕ)
  deriving DecidableEq

/-- The length that `read_impl` goes on with. -/
def readLen (fileSize pos len : ℕ) : ℕ := if fileSize < pos + len then fileSize - pos else len

/-- `blksz` of `write_impl`. -/
def writeBlksz (pos len : ℕ) : ℕ := if len % blksz ≠ 0 ∨ pos % blksz ≠ 0 then 512 else blksz

/-- `blksz` of `read_impl`: a range within one chunk is one request. -/
def readBlksz (pos len : ℕ) : ℕ := if pos % blksz + len ≤ blksz then len else writeBlksz pos len

/-- One step of the loop of `read_impl`. -/
def readStep (readDeg step len : ℕ) : LoopPc → LoopPc × Option LoopAct
  | .outer j => (if j < len then .inner 0 j else .done, none)
  | .inner rqK j =>
    if rqK < readDeg then
      if len ≤ j then (.wait 0 rqK j, none) else (.inner (rqK + 1) (j + step), some (.request rqK j))
    else (.wait 0 rqK j, none)
  | .wait k rqK j => if k < rqK then (.wait (k + 1) rqK j, some (.check k)) else (.outer j, none)
  | .done => (.done, none)

/-- One step of the loop of `write_impl`. Its `break` comes before `rq_k++`. -/
def writeStep (writeDeg step len : ℕ) : LoopPc → LoopPc × Option LoopAct
  | .outer j => (if j < len then .inner 0 j else .done, none)
  | .inner rqK j =>
    if rqK < writeDeg then
      (if len ≤ j + step then .wait 0 rqK (j + step) else .inner (rqK + 1) (j + step),
        some (.request rqK j))
    else (.wait 0 rqK j, none)
  | .wait k rqK j => if k < rqK then (.wait (k + 1) rqK j, some (.check k)) else (.outer j, none)
  | .done => (.done, none)

/-- `DIV_CEIL(blksz, 512)`. -/
def numBlk (step : ℕ) : ℕ := (step + 512 - 1) / 512

/-- `MIN(blksz, len - j)`. -/
def reqLen (step len j : ℕ) : ℕ := if step < len - j then step else len - j

theorem reqLen_eq_min (step len j : ℕ) : reqLen step len j = min step (len - j) := by
  unfold reqLen
  split_ifs <;> omega

/-- The loop can be at `pc`. -/
inductive Reaches (next : LoopPc → LoopPc × Option LoopAct) : LoopPc → Prop
  | start : Reaches next (.outer 0)
  | step {pc} : Reaches next pc → Reaches next (next pc).1

/-- The loop requests `buf + j`. -/
def Requests (next : LoopPc → LoopPc × Option LoopAct) (j : ℕ) : Prop :=
  ∃ pc rqK, Reaches next pc ∧ (next pc).2 = some (.request rqK j)

/-! ### What the loops request -/

/-- Invariant of the loop of `read_impl`: its position is a multiple of its step. -/
def AtMultiple (step : ℕ) : LoopPc → Prop
  | .outer j | .inner _ j | .wait _ _ j => step ∣ j
  | .done => True

/-- Invariant of the loop of `write_impl`, which tests the length before its inner loop and
after each request. -/
def BelowLen (step len : ℕ) : LoopPc → Prop
  | .inner _ j => step ∣ j ∧ j < len
  | .outer j | .wait _ _ j => step ∣ j
  | .done => True

theorem atMultiple_next (deg len : ℕ) {step : ℕ} {pc : LoopPc} (h : AtMultiple step pc) :
    AtMultiple step (readStep deg step len pc).1 := by
  cases pc with
  | outer j =>
    simp only [readStep]
    split_ifs
    · exact h
    · trivial
  | inner rqK j =>
    simp only [readStep]
    split_ifs
    · exact h
    · exact (Nat.dvd_add_right h).mpr dvd_rfl
    · exact h
  | wait k rqK j =>
    simp only [readStep]
    split_ifs <;> exact h
  | done => trivial

theorem read_multiple {deg step len : ℕ} {pc : LoopPc} (h : Reaches (readStep deg step len) pc) :
    AtMultiple step pc := by
  induction h with
  | start => exact Nat.dvd_zero step
  | step _ ih => exact atMultiple_next deg len ih

theorem write_below {deg step len : ℕ} {pc : LoopPc} (h : Reaches (writeStep deg step len) pc) :
    BelowLen step len pc := by
  induction h with
  | start => exact Nat.dvd_zero step
  | @step pc _ ih =>
    cases pc with
    | outer j =>
      simp only [writeStep]
      split_ifs with hj
      · exact ⟨ih, hj⟩
      · trivial
    | inner rqK j =>
      have hnext : step ∣ j + step := (Nat.dvd_add_right ih.1).mpr dvd_rfl
      simp only [writeStep]
      split_ifs with h1 h2
      · exact hnext
      · exact ⟨hnext, Nat.lt_of_not_le h2⟩
      · exact ih.1
    | wait k rqK j =>
      simp only [writeStep]
      split_ifs <;> exact ih
    | done => trivial

/-- `read_impl` requests multiples of its step below the length. -/
theorem read_requests {deg step len j : ℕ} (h : Requests (readStep deg step len) j) :
    step ∣ j ∧ j < len := by
  obtain ⟨pc, rqK, hpc, hr⟩ := h
  have hm := read_multiple hpc
  cases pc with
  | inner rqK' j' =>
    simp only [readStep] at hr
    split_ifs at hr with h1 h2
    simp only [Option.some.injEq, LoopAct.request.injEq] at hr
    obtain ⟨-, rfl⟩ := hr
    exact ⟨hm, by omega⟩
  | wait k rqK' j' =>
    simp only [readStep] at hr
    split_ifs at hr
    simp at hr
  | _ => simp [readStep] at hr

/-- `write_impl` requests multiples of its step below the length. -/
theorem write_requests {deg step len j : ℕ} (h : Requests (writeStep deg step len) j) :
    step ∣ j ∧ j < len := by
  obtain ⟨pc, rqK, hpc, hr⟩ := h
  have hm := write_below hpc
  cases pc with
  | inner rqK' j' =>
    by_cases h1 : rqK' < deg
    · simp only [writeStep, if_pos h1, Option.some.injEq, LoopAct.request.injEq] at hr
      obtain ⟨-, rfl⟩ := hr
      exact hm
    · simp [writeStep, h1] at hr
  | wait k rqK' j' =>
    simp only [writeStep] at hr
    split_ifs at hr
    simp at hr
  | _ => simp [writeStep] at hr

/-! ### How far the loops have come -/

/-- How far the loop of a call has come. -/
def progress (len : ℕ) : LoopPc → ℕ
  | .outer j | .inner _ j | .wait _ _ j => j
  | .done => len

/-- The loop of a call that makes requests of `step` bytes, a divisor of its length. -/
def LoopInv (step len : ℕ) : LoopPc → Prop
  | .outer j => step ∣ j ∧ j ≤ len
  | .inner _ j => step ∣ j ∧ j < len
  | .wait _ _ j => step ∣ j ∧ j ≤ len ∧ 0 < len
  | .done => True

theorem writeBlksz_pos (pos len : ℕ) : 0 < writeBlksz pos len := by
  unfold writeBlksz blksz
  split_ifs <;> decide

theorem readBlksz_pos {len : ℕ} (pos : ℕ) (h : 0 < len) : 0 < readBlksz pos len := by
  unfold readBlksz
  split_ifs
  · exact h
  · exact writeBlksz_pos pos len

theorem writeBlksz_dvd {pos len : ℕ} (h : 512 ∣ len) : writeBlksz pos len ∣ len := by
  unfold writeBlksz
  split_ifs with hb
  · exact h
  · push Not at hb
    exact Nat.dvd_of_mod_eq_zero hb.1

section Loop

variable {deg step len : ℕ}

/-- A multiple of a divisor of the length, below it, has room for one more step. -/
theorem add_step_le {j : ℕ} (hdvd : step ∣ len) (hj : step ∣ j) (hlt : j < len) : j + step ≤ len := by
  obtain ⟨a, rfl⟩ := hdvd
  obtain ⟨b, rfl⟩ := hj
  have hba : b < a := Nat.lt_of_mul_lt_mul_left hlt
  calc step * b + step = step * (b + 1) := (Nat.mul_succ step b).symm
    _ ≤ step * a := Nat.mul_le_mul_left step hba

theorem loopInv_next {pc : LoopPc} (h : LoopInv step len pc) (hdvd : step ∣ len) :
    LoopInv step len (writeStep deg step len pc).1 := by
  cases pc with
  | outer j =>
    simp only [writeStep]
    split_ifs with hj
    · exact ⟨h.1, hj⟩
    · trivial
  | inner rqK j =>
    obtain ⟨hj, hlt⟩ := h
    have hle := add_step_le hdvd hj hlt
    have hnext : step ∣ j + step := (Nat.dvd_add_right hj).mpr dvd_rfl
    simp only [writeStep]
    split_ifs with h1 h2
    · exact ⟨hnext, hle, Nat.zero_lt_of_lt hlt⟩
    · exact ⟨hnext, Nat.lt_of_not_le h2⟩
    · exact ⟨hj, Nat.le_of_lt hlt, Nat.zero_lt_of_lt hlt⟩
  | wait k rqK j =>
    simp only [writeStep]
    split_ifs
    · exact h
    · exact ⟨h.1, h.2.1⟩
  | done => trivial

/-- A request is for the place that the loop has come to, and moves it on by its length. -/
theorem progress_request {pc pc' : LoopPc} {rqK j : ℕ} (h : LoopInv step len pc) (hdvd : step ∣ len)
    (hs : writeStep deg step len pc = (pc', some (.request rqK j))) :
    j = progress len pc ∧ progress len pc' = j + step ∧ j + step ≤ len ∧ 0 < len := by
  cases pc with
  | inner rqK' j' =>
    obtain ⟨hj, hlt⟩ := h
    have hle := add_step_le hdvd hj hlt
    simp only [writeStep] at hs
    split_ifs at hs with h1 h2
    · injection hs with hpc hact
      injection hact with hact
      injection hact with _ hact
      subst hpc hact
      exact ⟨rfl, rfl, hle, Nat.zero_lt_of_lt hlt⟩
    · injection hs with hpc hact
      injection hact with hact
      injection hact with _ hact
      subst hpc hact
      exact ⟨rfl, rfl, hle, Nat.zero_lt_of_lt hlt⟩
    · cases hs
  | outer j' => cases hs
  | wait k rqK' j' =>
    simp only [writeStep] at hs
    split_ifs at hs <;> cases hs
  | done => cases hs

/-- The other steps leave the loop where it is. -/
theorem progress_quiet {pc pc' : LoopPc} {act : Option LoopAct} (h : LoopInv step len pc)
    (hs : writeStep deg step len pc = (pc', act)) (hact : ∀ rqK j, act ≠ some (.request rqK j)) :
    progress len pc' = progress len pc := by
  cases pc with
  | outer j =>
    injection hs with hpc _
    subst hpc
    split_ifs with hj
    · rfl
    · exact Nat.le_antisymm (Nat.le_of_not_lt hj) h.2
  | inner rqK j =>
    simp only [writeStep] at hs
    split_ifs at hs with h1 h2
    · injection hs with _ ha
      exact absurd ha.symm (hact rqK j)
    · injection hs with _ ha
      exact absurd ha.symm (hact rqK j)
    · injection hs with hpc _
      subst hpc
      rfl
  | wait k rqK j =>
    simp only [writeStep] at hs
    split_ifs at hs <;> (injection hs with hpc _; subst hpc; rfl)
  | done =>
    injection hs with hpc _
    subst hpc
    rfl

end Loop

/-! ### The loops end -/

/-- The requests that `rid` holds of this batch. -/
def batch : LoopPc → ℕ
  | .inner rqK _ | .wait _ rqK _ => rqK
  | .outer _ | .done => 0

/-- A number of steps within which the loop ends when it never has to wait. -/
def stepsLeft (deg len : ℕ) : LoopPc → ℕ
  | .outer j => (deg + 5) * (len - j) + 2
  | .inner rqK j => (deg + 5) * (len - j) + if rqK < deg ∧ j < len then 1 else deg + 4
  | .wait k rqK j => (deg + 5) * (len - j) + (rqK - k) + 3
  | .done => 0

section Ends

variable {deg step len : ℕ} {pc : LoopPc}

theorem stepsLeft_request (deg : ℕ) (hstep : 0 < step) {j : ℕ} (hj : j < len) :
    (deg + 5) * (len - (j + step)) + (deg + 5) ≤ (deg + 5) * (len - j) :=
  calc (deg + 5) * (len - (j + step)) + (deg + 5) = (deg + 5) * (len - (j + step) + 1) := by ring
    _ ≤ (deg + 5) * (len - j) := Nat.mul_le_mul_left _ (by omega)

theorem stepsLeft_inner_le (rqK j : ℕ) :
    stepsLeft deg len (.inner rqK j) ≤ (deg + 5) * (len - j) + (deg + 4) := by
  simp only [stepsLeft]
  split_ifs <;> omega

theorem stepsLeft_next (hstep : 0 < step) {rqK j : ℕ} (hk : rqK < deg) (hj : j < len) :
    stepsLeft deg len (.inner (rqK + 1) (j + step)) < stepsLeft deg len (.inner rqK j) :=
  calc stepsLeft deg len (.inner (rqK + 1) (j + step))
      ≤ (deg + 5) * (len - (j + step)) + (deg + 4) := stepsLeft_inner_le _ _
    _ < (deg + 5) * (len - (j + step)) + (deg + 5) := Nat.lt_succ_self _
    _ ≤ (deg + 5) * (len - j) := stepsLeft_request deg hstep hj
    _ ≤ (deg + 5) * (len - j) + 1 := Nat.le_succ _
    _ = stepsLeft deg len (.inner rqK j) := by simp only [stepsLeft, if_pos (And.intro hk hj)]

theorem readStep_batch_le (step len : ℕ) (h : batch pc ≤ deg) : batch (readStep deg step len pc).1 ≤ deg := by
  cases pc with
  | outer j =>
    simp only [readStep]
    split_ifs <;> exact Nat.zero_le deg
  | inner rqK j =>
    simp only [readStep]
    split_ifs with h1
    · exact h
    · exact h1
    · exact h
  | wait k rqK j =>
    simp only [readStep]
    split_ifs
    · exact h
    · exact Nat.zero_le deg
  | done => exact h

/-- The outer tests and the waits, which both loops make alike. -/
theorem stepsLeft_outer (hdeg : 0 < deg) (j : ℕ) :
    stepsLeft deg len (if j < len then .inner 0 j else .done) < stepsLeft deg len (.outer j) := by
  split_ifs with hj
  · simp only [stepsLeft, if_pos (And.intro hdeg hj)]
    omega
  · simp only [stepsLeft]
    omega

theorem stepsLeft_wait (deg len k rqK j : ℕ) :
    stepsLeft deg len (if k < rqK then LoopPc.wait (k + 1) rqK j else .outer j) <
      stepsLeft deg len (.wait k rqK j) := by
  split_ifs
  · simp only [stepsLeft]
    omega
  · simp only [stepsLeft]
    omega

theorem stepsLeft_batch {rqK j : ℕ} (hle : rqK ≤ deg) (hend : ¬ (rqK < deg ∧ j < len)) :
    stepsLeft deg len (.wait 0 rqK j) < stepsLeft deg len (.inner rqK j) := by
  simp only [stepsLeft, if_neg hend]
  omega

theorem readStep_stepsLeft (hdeg : 0 < deg) (hstep : 0 < len → 0 < step) (hbatch : batch pc ≤ deg)
    (hpc : pc ≠ .done) : stepsLeft deg len (readStep deg step len pc).1 < stepsLeft deg len pc := by
  cases pc with
  | outer j => exact stepsLeft_outer hdeg j
  | inner rqK j =>
    simp only [readStep]
    split_ifs with h1 h2
    · exact stepsLeft_batch hbatch fun h => Nat.not_le_of_lt h.2 h2
    · have hj := Nat.lt_of_not_le h2
      exact stepsLeft_next (hstep (Nat.zero_lt_of_lt hj)) h1 hj
    · exact stepsLeft_batch hbatch fun h => h1 h.1
  | wait k rqK j =>
    have h := stepsLeft_wait deg len k rqK j
    simp only [readStep]
    split_ifs with hk
    · rwa [if_pos hk] at h
    · rwa [if_neg hk] at h
  | done => exact absurd rfl hpc

theorem writeStep_stepsLeft (hdeg : 0 < deg) (hstep : 0 < step) (hbatch : batch pc ≤ deg)
    (hinner : ∀ rqK j, pc = .inner rqK j → j < len) (hpc : pc ≠ .done) :
    stepsLeft deg len (writeStep deg step len pc).1 < stepsLeft deg len pc := by
  cases pc with
  | outer j => exact stepsLeft_outer hdeg j
  | inner rqK j =>
    have hj := hinner rqK j rfl
    have hreq := stepsLeft_request deg hstep hj
    simp only [writeStep]
    split_ifs with h1 h2
    · have hle : rqK ≤ deg := hbatch
      simp only [stepsLeft, if_pos (And.intro h1 hj)]
      omega
    · exact stepsLeft_next hstep h1 hj
    · exact stepsLeft_batch hbatch fun h => h1 h.1
  | wait k rqK j =>
    have h := stepsLeft_wait deg len k rqK j
    simp only [writeStep]
    split_ifs with hk
    · rwa [if_pos hk] at h
    · rwa [if_neg hk] at h
  | done => exact absurd rfl hpc

end Ends

/-! ### Chunks -/

/-- A request of `step` bytes at multiples of `step` stays in its chunk. -/
theorem chunk_of_write {pos len j : ℕ} (hj : writeBlksz pos len ∣ j) :
    (pos + j) / 512 % raidFactor + numBlk (writeBlksz pos len) ≤ raidFactor ∧
      numBlk (writeBlksz pos len) * 512 ≤ blksz := by
  by_cases h : len % blksz ≠ 0 ∨ pos % blksz ≠ 0
  · have hs : writeBlksz pos len = 512 := if_pos h
    rw [hs]
    simp only [raidFactor_eq, numBlk, blksz]
    omega
  · have hs : writeBlksz pos len = blksz := if_neg h
    rw [hs] at hj ⊢
    obtain ⟨k, rfl⟩ := hj
    simp only [raidFactor_eq, numBlk, blksz] at h ⊢
    omega

/-- The same for `read_impl`, whose single request of a short range begins at its start. -/
theorem chunk_of_read {pos len j : ℕ} (hpos : pos % 512 = 0) (hj : readBlksz pos len ∣ j)
    (hlt : j < len) :
    (pos + j) / 512 % raidFactor + numBlk (readBlksz pos len) ≤ raidFactor ∧
      numBlk (readBlksz pos len) * 512 ≤ blksz := by
  by_cases h : pos % blksz + len ≤ blksz
  · have hs : readBlksz pos len = len := if_pos h
    rw [hs] at hj ⊢
    have hj0 : j = 0 := Nat.eq_zero_of_dvd_of_lt hj hlt
    subst hj0
    simp only [raidFactor_eq, numBlk, blksz] at h ⊢
    omega
  · have hs : readBlksz pos len = writeBlksz pos len := if_neg h
    rw [hs] at hj ⊢
    exact chunk_of_write hj

/-! ### The address map -/

variable {N : ℕ}

/-- Mapped block numbers are numbers of blocks. -/
def InRange (sb : Superblock N) : Prop :=
  ∀ i < maxFiles, ∀ j < maxBlocksPerFile, (sb.file i).block j ≠ inactiveBlock →
    0 ≤ (sb.file i).block j ∧ (sb.file i).block j < numBlocks

/-- No block is mapped twice. -/
def MappedOnce (sb : Superblock N) : Prop :=
  ∀ i < maxFiles, ∀ k < maxFiles, ∀ j < maxBlocksPerFile, ∀ l < maxBlocksPerFile,
    (sb.file i).block j ≠ inactiveBlock → (sb.file i).block j = (sb.file k).block l → i = k ∧ j = l

/-- The byte `offset` of file `i` lies in a mapped block. -/
def Mapped (sb : Superblock N) (i offset : ℕ) : Prop :=
  i < maxFiles ∧ offset < maxBlocksPerFile * blockSize ∧
    (sb.file i).block (offset / blockSize) ≠ inactiveBlock

/-- The size of a file that fits its block table is not reduced modulo `2 ^ 64`. -/
theorem getSize_of_le {sb : Superblock N} {i : ℕ} (h : (sb.file i).nBlock ≤ maxBlocksPerFile) :
    myfsGetSize sb i = (sb.file i).nBlock * blockSize := by
  have hbs : blockSize = 2097152 := by simp [blockSize]
  have hmax : maxBlocksPerFile = 131072 := by simp [maxBlocksPerFile]
  rw [hmax] at h
  rw [myfsGetSize, hbs]
  exact Nat.mod_eq_of_lt (by omega)

/-- The address of a byte in block `b`. -/
theorem lbaOf_of_range {b : ℤ} (h0 : 0 ≤ b) (hb : b < numBlocks) (offset : ℕ) :
    lbaOf b offset = b.toNat * 4096 + offset % blockSize / 512 ∧
      lbaOf b offset < 2936012800 := by
  obtain ⟨n, rfl⟩ := Int.eq_ofNat_of_zero_le h0
  have hn : n < 700 * 1024 := by
    have : ((n : ℕ) : ℤ) < ((700 * 1024 : ℕ) : ℤ) := by simpa [numBlocks] using hb
    omega
  have hbs : blockSize = 2097152 := by simp [blockSize]
  have hmod : offset % 2097152 < 2097152 := Nat.mod_lt _ (by decide)
  have hcast : ((n : ℤ) * (2097152 : ℕ) + (offset % 2097152 : ℕ)) % 2 ^ 64 =
      ((n * 2097152 + offset % 2097152 : ℕ) : ℤ) := by
    rw [Int.emod_eq_of_lt (by omega) (by omega)]
    push_cast
    rfl
  rw [lbaOf, hbs, hcast, Int.toNat_natCast, Int.toNat_natCast]
  omega

/-- `myfs_get_lba` of a mapped byte returns its address. -/
theorem getLba_of_mapped {sb : Superblock N} {i offset : ℕ} (h : Mapped sb i offset) (write : Bool) :
    myfsGetLba sb i offset write =
      some (sb, some (lbaOf ((sb.file i).block (offset / blockSize)) offset)) := by
  obtain ⟨-, hoff, hne⟩ := h
  obtain ⟨hb, hlt⟩ := iBlock_of_lt hoff
  rw [myfsGetLba, if_pos hlt, hb]
  cases write with
  | false => simp only [Bool.false_eq_true, if_false, if_neg hne]
  | true => simp only [if_true, mapBlock_of_mapped hne, if_neg hne]

theorem lba_lt {sb : Superblock N} (hr : InRange sb) {i a : ℕ} (h : Mapped sb i a) :
    lbaOf ((sb.file i).block (a / blockSize)) a < 2 ^ 32 := by
  obtain ⟨hi, ha, hm⟩ := h
  obtain ⟨he, hj⟩ := iBlock_of_lt ha
  rw [he] at hj
  obtain ⟨h0, hlt⟩ := hr i hi _ hj hm
  have := (lbaOf_of_range h0 hlt a).2
  omega

/-- Two mapped bytes have one address exactly when they lie in one sector of one file. -/
theorem lba_eq_iff {sb : Superblock N} (hr : InRange sb) (hd : MappedOnce sb) {i k a b : ℕ}
    (ha : Mapped sb i a) (hb : Mapped sb k b) :
    lbaOf ((sb.file i).block (a / blockSize)) a = lbaOf ((sb.file k).block (b / blockSize)) b ↔
      i = k ∧ a / 512 = b / 512 := by
  obtain ⟨hi, ha, hma⟩ := ha
  obtain ⟨hk, hb, hmb⟩ := hb
  obtain ⟨ha', hja⟩ := iBlock_of_lt ha
  obtain ⟨hb', hjb⟩ := iBlock_of_lt hb
  rw [ha'] at hja
  rw [hb'] at hjb
  obtain ⟨h0a, hlta⟩ := hr i hi _ hja hma
  obtain ⟨h0b, hltb⟩ := hr k hk _ hjb hmb
  have hbs : blockSize = 2097152 := by simp [blockSize]
  rw [(lbaOf_of_range h0a hlta a).1, (lbaOf_of_range h0b hltb b).1]
  constructor
  · intro he
    rw [hbs] at he
    have hblock : (sb.file i).block (a / blockSize) = (sb.file k).block (b / blockSize) := by
      rw [hbs] at h0a h0b ⊢
      omega
    obtain ⟨hik, hidx⟩ := hd i hi k hk _ hja _ hjb hma hblock
    rw [hbs] at hidx hblock
    exact ⟨hik, by omega⟩
  · rintro ⟨rfl, hsec⟩
    have hidx : a / blockSize = b / blockSize := by
      rw [hbs]
      omega
    rw [hidx, hbs]
    omega

/-- The sectors of a request are the images of consecutive addresses, and fit a DMA buffer. -/
def Contiguous (nd lba num : ℕ) : Prop :=
  (∀ t < num, image nd (lba + t) = (reqDid nd lba, reqCdw10 nd lba + t)) ∧ num * 512 ≤ blksz

/-- A request of `step` bytes at `buf + j` keeps `int j` in range, and its sectors are contiguous
on one of the drives. -/
def GoodRequest (nd lba step j : ℕ) : Prop :=
  reqDid nd lba < nd ∧ Contiguous nd lba (numBlk step) ∧ j + step < 2 ^ 31

/-- An address that `myfs_get_lba` returned is the one of a mapped block. -/
theorem getLba_eq_some {sb sb' : Superblock N} {i offset lba : ℕ} {write : Bool}
    (h : myfsGetLba sb i offset write = some (sb', some lba)) :
    iBlock offset < maxBlocksPerFile ∧ (sb'.file i).block (iBlock offset) ≠ inactiveBlock ∧
      lba = lbaOf ((sb'.file i).block (iBlock offset)) offset := by
  by_cases hb : iBlock offset < maxBlocksPerFile
  · rw [myfsGetLba, if_pos hb] at h
    simp only [Option.some.injEq, Prod.mk.injEq] at h
    obtain ⟨rfl, h⟩ := h
    generalize (if write = true then mapBlock sb i (iBlock offset) else sb) = sb' at h ⊢
    split_ifs at h with hm
    exact ⟨hb, hm, (Option.some.inj h).symm⟩
  · rw [myfsGetLba, if_neg hb] at h
    contradiction

/-- A request that stays in its chunk is contiguous on its drive. -/
theorem contiguous_of_chunk {nd num : ℕ} {sb sb' : Superblock N} (hr : InRange sb') {i offset lba : ℕ}
    (hi : i < maxFiles) {write : Bool}
    (hget : myfsGetLba sb i offset write = some (sb', some lba))
    (hchunk : offset / 512 % raidFactor + num ≤ raidFactor ∧ num * 512 ≤ blksz) :
    Contiguous nd lba num := by
  obtain ⟨hb, hm, rfl⟩ := getLba_eq_some hget
  obtain ⟨h0, hlt⟩ := hr i hi _ hb hm
  obtain ⟨hlba, hlt32⟩ := lbaOf_of_range h0 hlt offset
  have hbs : blockSize = 2097152 := by simp [blockSize]
  obtain ⟨hc, hsize⟩ := hchunk
  rw [raidFactor_eq] at hc
  refine ⟨fun t ht => image_add ?_ ?_, hsize⟩
  · omega
  · rw [hlba, hbs, raidFactor_eq]
    omega

theorem step_of_write {pos len j : ℕ} (hj : j < len) (hlen : len < 2 ^ 31 - 4096) :
    j + writeBlksz pos len < 2 ^ 31 := by
  have hle : writeBlksz pos len ≤ 4096 := by
    unfold writeBlksz blksz
    split_ifs <;> simp
  omega

theorem step_of_read {pos len j : ℕ} (hj : j < len) (hdvd : readBlksz pos len ∣ j)
    (hlen : len < 2 ^ 31 - 4096) : j + readBlksz pos len < 2 ^ 31 := by
  by_cases h : pos % blksz + len ≤ blksz
  · have hs : readBlksz pos len = len := if_pos h
    rw [hs] at hdvd ⊢
    rw [Nat.eq_zero_of_dvd_of_lt hdvd hj]
    omega
  · have hs : readBlksz pos len = writeBlksz pos len := if_neg h
    rw [hs]
    exact step_of_write hj hlen

/-- The requests of `write_impl` are whole sectors of one chunk. -/
theorem aligned_of_write {pos len j : ℕ} (hpos : pos % 512 = 0) (hj : writeBlksz pos len ∣ j) :
    (pos + j) % 512 = 0 ∧ numBlk (writeBlksz pos len) * 512 = writeBlksz pos len ∧
      (pos + j) / 512 % raidFactor + numBlk (writeBlksz pos len) ≤ raidFactor ∧
      numBlk (writeBlksz pos len) * 512 ≤ blksz := by
  have hwhole : 512 ∣ writeBlksz pos len ∧ numBlk (writeBlksz pos len) * 512 = writeBlksz pos len := by
    unfold writeBlksz numBlk blksz
    split_ifs <;> decide
  have hsector := Nat.mod_eq_zero_of_dvd (hwhole.1.trans hj)
  exact ⟨by omega, hwhole.2, chunk_of_write hj⟩

/-- Those of `read_impl` begin at a sector and end in the same chunk. -/
theorem aligned_of_read {pos len j : ℕ} (hpos : pos % 512 = 0) (hj : readBlksz pos len ∣ j) (hlt : j < len) :
    (pos + j) % 512 = 0 ∧ (pos + j) / 512 % raidFactor + numBlk (readBlksz pos len) ≤ raidFactor ∧
      numBlk (readBlksz pos len) * 512 ≤ blksz := by
  refine ⟨?_, chunk_of_read hpos hj hlt⟩
  by_cases h : pos % blksz + len ≤ blksz
  · have hs : readBlksz pos len = len := if_pos h
    rw [hs] at hj
    rw [Nat.eq_zero_of_dvd_of_lt hj hlt]
    exact hpos
  · have hs : readBlksz pos len = writeBlksz pos len := if_neg h
    rw [hs] at hj
    exact (aligned_of_write hpos hj).1

theorem readLen_le (fileSize pos len : ℕ) : readLen fileSize pos len ≤ len := by
  unfold readLen
  split_ifs <;> omega

theorem lt_readLen {fileSize pos len k : ℕ} (hk : k < len) (h : pos + k < fileSize) :
    k < readLen fileSize pos len := by
  unfold readLen
  split_ifs <;> omega

/-- Drive and `CDW10` identify file and sector, and no request leaves its chunk. A request's
table is the one `myfs_get_lba` leaves, which a write may have extended. -/
theorem address_map (nd : ℕ) (hnd : 1 ≤ nd) {sb : Superblock N} (hr : InRange sb)
    (hd : MappedOnce sb) :
    (∀ i a k b, Mapped sb i a → Mapped sb k b → ∀ w w' : Bool, ∃ la lb,
      myfsGetLba sb i a w = some (sb, some la) ∧ myfsGetLba sb k b w' = some (sb, some lb) ∧
        (image nd la = image nd lb ↔ i = k ∧ a / 512 = b / 512)) ∧
    (∀ i < maxFiles, ∀ deg fileSize pos len j lba, pos % 512 = 0 → len < 2 ^ 31 - 4096 →
      Requests (readStep deg (readBlksz pos (readLen fileSize pos len)) (readLen fileSize pos len)) j →
      ∀ sb₀, myfsGetLba sb₀ i (pos + j) false = some (sb, some lba) →
        GoodRequest nd lba (readBlksz pos (readLen fileSize pos len)) j) ∧
    (∀ i < maxFiles, ∀ deg pos len j lba, pos % 512 = 0 → len < 2 ^ 31 - 4096 →
      Requests (writeStep deg (writeBlksz pos len) len) j →
      ∀ sb₀, myfsGetLba sb₀ i (pos + j) true = some (sb, some lba) →
        GoodRequest nd lba (writeBlksz pos len) j) := by
  have hdid : ∀ lba, reqDid nd lba < nd := fun lba => Nat.mod_lt _ hnd
  refine ⟨?_, ?_, ?_⟩
  · intro i a k b ha hb w w'
    refine ⟨_, _, getLba_of_mapped ha w, getLba_of_mapped hb w', ?_⟩
    have hla := lba_lt hr ha
    have hlb := lba_lt hr hb
    rw [image_eq_iff hla hlb, lba_eq_iff hr hd ha hb]
  · intro i hi deg fileSize pos len j lba hpos hlen hreq sb₀ hget
    obtain ⟨hdvd, hj⟩ := read_requests hreq
    have hlen' := lt_of_le_of_lt (readLen_le fileSize pos len) hlen
    exact ⟨hdid lba, contiguous_of_chunk hr hi hget (chunk_of_read hpos hdvd hj),
      step_of_read hj hdvd hlen'⟩
  · intro i hi deg pos len j lba hpos hlen hreq sb₀ hget
    obtain ⟨hdvd, hj⟩ := write_requests hreq
    exact ⟨hdid lba, contiguous_of_chunk hr hi hget (chunk_of_write hdvd), step_of_write hj hlen⟩

/-- A file with one mapped block. -/
def oneMapped : Superblock 1 where
  magic := myfsMagic
  free := { cell := fun _ => 0, rp := 0, wp := 0, rp_lt := Nat.one_pos, wp_lt := Nat.one_pos }
  file := fun i =>
    { name := CString.empty
      block := fun j => if i = 0 ∧ j = 0 then 0 else inactiveBlock
      nBlock := if i = 0 then 1 else 0 }

theorem oneMapped_block {i j : ℕ} (h : (oneMapped.file i).block j ≠ inactiveBlock) :
    i = 0 ∧ j = 0 := by
  by_contra hne
  exact h (if_neg hne)

theorem oneMapped_inRange : InRange oneMapped := by
  intro i _ j _ h
  obtain ⟨rfl, rfl⟩ := oneMapped_block h
  change (0 : ℤ) ≤ 0 ∧ (0 : ℤ) < numBlocks
  simp [numBlocks]

theorem oneMapped_mappedOnce : MappedOnce oneMapped := by
  intro i _ k _ j _ l _ h he
  obtain ⟨rfl, rfl⟩ := oneMapped_block h
  rw [he] at h
  obtain ⟨rfl, rfl⟩ := oneMapped_block h
  exact ⟨rfl, rfl⟩

theorem oneMapped_mapped {a : ℕ} (h : a < 2097152) : Mapped oneMapped 0 a := by
  have hbs : blockSize = 2097152 := by simp [blockSize]
  have hmax : maxBlocksPerFile = 131072 := by simp [maxBlocksPerFile]
  refine ⟨by simp [maxFiles], by rw [hbs, hmax]; omega, ?_⟩
  rw [hbs, Nat.div_eq_of_lt h]
  change (0 : ℤ) ≠ -1
  decide

/-- Two bytes of a first block on two drives, and the one request for 1000 bytes at 4096. -/
theorem address_map_oneMapped :
    (∃ la lb, myfsGetLba oneMapped 0 0 false = some (oneMapped, some la) ∧
      myfsGetLba oneMapped 0 512 true = some (oneMapped, some lb) ∧
        (image 2 la = image 2 lb ↔ 0 = 0 ∧ 0 / 512 = 512 / 512)) ∧
    (∃ lba, myfsGetLba oneMapped 0 4096 false = some (oneMapped, some lba) ∧
      GoodRequest 2 lba (readBlksz 4096 (readLen 8192 4096 1000)) 0) ∧
    ∃ lba, myfsGetLba oneMapped 0 4096 true = some (oneMapped, some lba) ∧
      GoodRequest 2 lba (writeBlksz 4096 1000) 0 := by
  obtain ⟨haddr, hread, hwrite⟩ :=
    address_map 2 (by decide) oneMapped_inRange oneMapped_mappedOnce
  have hfiles : 0 < maxFiles := by simp [maxFiles]
  have hget := getLba_of_mapped (oneMapped_mapped (a := 4096) (by decide))
  refine ⟨haddr 0 0 0 512 (oneMapped_mapped (by decide)) (oneMapped_mapped (by decide)) false true,
    ⟨_, hget false, ?_⟩, ⟨_, hget true, ?_⟩⟩
  · exact hread 0 hfiles 8 8192 4096 1000 0 _ (by decide) (by decide)
      ⟨.inner 0 0, 0, .step .start, by decide⟩ oneMapped (hget false)
  · exact hwrite 0 hfiles 8 4096 1000 0 _ (by decide) (by decide)
      ⟨.inner 0 0, 0, .step .start, by decide⟩ oneMapped (hget true)

end Pthabt.Hook
