import Pthabt.Lib.PhaseRing

/-! The memory that a queue pair shares with its drive (`nvme.cc`), in 32-bit words: the
completion entries `cqe_t` from its start and the submission entries `sqe_t` from
`sq_offset`. The two arrays overlap when the completion queue is too long. -/

namespace Pthabt.Nvme

open Lib

/-- `cqe_t`, with its status fields as one number. -/
structure Cqe where
  dw0 : ℕ
  dw1 : ℕ
  dw2 : ℕ
  cid : ℕ
  p : Bool
  status : ℕ

/-- The word `SF` of an entry. -/
def Cqe.sf (c : Cqe) : ℕ := c.cid + 2 ^ 16 * (if c.p then 1 else 0) + 2 ^ 17 * c.status

/-- `get_cqe(i)->SF.CID`. -/
def cqeCid (sqcq : ℕ → ℕ) (i : ℕ) : ℕ := sqcq (4 * i + 3) % 2 ^ 16

/-- `get_cqe(i)->SF.P`. -/
def cqeP (sqcq : ℕ → ℕ) (i : ℕ) : Bool := sqcq (4 * i + 3) / 2 ^ 16 % 2 == 1

/-- The four words of entry `i`. -/
def writeCqe (sqcq : ℕ → ℕ) (i : ℕ) (c : Cqe) : ℕ → ℕ := fun w =>
  if w = 4 * i then c.dw0
  else if w = 4 * i + 1 then c.dw1
  else if w = 4 * i + 2 then c.dw2
  else if w = 4 * i + 3 then c.sf
  else sqcq w

/-- What the driver reads of an entry. -/
def cqSlot (sqcq : ℕ → ℕ) (i : ℕ) : ℕ × Bool := (cqeCid sqcq i, cqeP sqcq i)

theorem writeCqe_sf (sqcq : ℕ → ℕ) (i : ℕ) (c : Cqe) : writeCqe sqcq i c (4 * i + 3) = c.sf := by
  simp [writeCqe]

theorem writeCqe_of_ne (sqcq : ℕ → ℕ) {i w : ℕ} (c : Cqe) (h : w / 4 ≠ i) :
    writeCqe sqcq i c w = sqcq w := by
  unfold writeCqe
  split_ifs <;> first | rfl | omega

theorem cqeP_writeCqe_of_ne (sqcq : ℕ → ℕ) {i k : ℕ} (c : Cqe) (h : k ≠ i) :
    cqeP (writeCqe sqcq i c) k = cqeP sqcq k := by
  rw [cqeP, cqeP, writeCqe_of_ne _ _ (by omega)]

theorem sf_cid {c : Cqe} (h : c.cid < 2 ^ 16) : c.sf % 2 ^ 16 = c.cid := by
  unfold Cqe.sf
  split_ifs <;> omega

theorem sf_p {c : Cqe} (h : c.cid < 2 ^ 16) : (c.sf / 2 ^ 16 % 2 == 1) = c.p := by
  unfold Cqe.sf
  cases c.p with
  | true =>
    have h1 : (c.cid + 2 ^ 16 * 1 + 2 ^ 17 * c.status) / 2 ^ 16 % 2 = 1 := by omega
    simp only [if_true, h1, beq_self_eq_true]
  | false =>
    have h0 : (c.cid + 2 ^ 16 * 0 + 2 ^ 17 * c.status) / 2 ^ 16 % 2 = 0 := by omega
    simp only [Bool.false_eq_true, if_false, h0]
    rfl

/-- An entry written with a 16-bit identifier is read back, and the others are as before. -/
theorem cqSlot_writeCqe (sqcq : ℕ → ℕ) (i : ℕ) {c : Cqe} (h : c.cid < 2 ^ 16) :
    cqSlot (writeCqe sqcq i c) = Function.update (cqSlot sqcq) i (c.cid, c.p) := by
  funext k
  by_cases hk : k = i
  · subst hk
    rw [Function.update_self, cqSlot, cqeCid, cqeP, writeCqe_sf, sf_cid h, sf_p h]
  · rw [Function.update_of_ne hk, cqSlot, cqSlot, cqeCid, cqeP, cqeCid, cqeP,
      writeCqe_of_ne _ _ (by omega)]

/-! ### Submission entries -/

/-- `sq_offset`, in words. -/
def sqOffset : ℕ := 0x4000 / 4

/-- `NVME_NSID`. -/
def nvmeNsid : ℕ := 1

/-- The fields of `sqe_t` that the drive uses for a read or a write. -/
structure Sqe where
  opc : ℕ
  cid : ℕ
  prp1 : ℕ
  cdw10 : ℕ
  cdw12 : ℕ

/-- Entry `i` as the drive reads it. -/
def readSqe (sqcq : ℕ → ℕ) (i : ℕ) : Sqe where
  opc := sqcq (sqOffset + 16 * i) % 2 ^ 8
  cid := sqcq (sqOffset + 16 * i) / 2 ^ 16 % 2 ^ 16
  prp1 := sqcq (sqOffset + 16 * i + 6) + 2 ^ 32 * sqcq (sqOffset + 16 * i + 7)
  cdw10 := sqcq (sqOffset + 16 * i + 10)
  cdw12 := sqcq (sqOffset + 16 * i + 12)

/-- What a request stores in entry `i`. The rest of the word of `OPC` keeps its `CID`. -/
def writeSqe (sqcq : ℕ → ℕ) (i opc prp1 cdw10 cdw12 : ℕ) : ℕ → ℕ := fun w =>
  if w = sqOffset + 16 * i then sqcq w / 2 ^ 8 * 2 ^ 8 + opc
  else if w = sqOffset + 16 * i + 6 then prp1 % 2 ^ 32
  else if w = sqOffset + 16 * i + 7 then prp1 / 2 ^ 32 % 2 ^ 32
  else if w = sqOffset + 16 * i + 10 then cdw10
  else if w = sqOffset + 16 * i + 12 then cdw12
  else sqcq w

/-- Zeroed memory in which the constructor of `QP` has set `NSID` and `CID` of `n` entries. -/
def initSqcq (n : ℕ) : ℕ → ℕ := fun w =>
  if sqOffset ≤ w ∧ w < sqOffset + 16 * n then
    if w % 16 = 0 then (w - sqOffset) / 16 % 2 ^ 16 * 2 ^ 16
    else if w % 16 = 1 then nvmeNsid else 0
  else 0

theorem sqOffset_eq : sqOffset = 4096 := rfl

theorem readSqe_congr {m m' : ℕ → ℕ} {i : ℕ} (h : ∀ w, w / 16 = 256 + i → m' w = m w) :
    readSqe m' i = readSqe m i := by
  simp only [readSqe, sqOffset_eq]
  rw [h _ (by omega), h (4096 + 16 * i + 6) (by omega), h (4096 + 16 * i + 7) (by omega),
    h (4096 + 16 * i + 10) (by omega), h (4096 + 16 * i + 12) (by omega)]

theorem writeSqe_of_ne (m : ℕ → ℕ) {i w : ℕ} (opc prp1 cdw10 cdw12 : ℕ) (h : w / 16 ≠ 256 + i) :
    writeSqe m i opc prp1 cdw10 cdw12 w = m w := by
  unfold writeSqe
  rw [sqOffset_eq]
  split_ifs <;> first | rfl | omega

theorem readSqe_writeSqe_of_ne (m : ℕ → ℕ) {i k : ℕ} (opc prp1 cdw10 cdw12 : ℕ) (h : k ≠ i) :
    readSqe (writeSqe m i opc prp1 cdw10 cdw12) k = readSqe m k :=
  readSqe_congr fun _ hw => writeSqe_of_ne m _ _ _ _ (by omega)

/-- A stored entry is read back, with the identifier it had. -/
theorem readSqe_writeSqe (m : ℕ → ℕ) (i prp1 cdw10 cdw12 : ℕ) {opc : ℕ} (h : opc < 2 ^ 8) :
    readSqe (writeSqe m i opc prp1 cdw10 cdw12) i =
      ⟨opc, (readSqe m i).cid, prp1 % 2 ^ 64, cdw10, cdw12⟩ := by
  simp [readSqe, writeSqe, sqOffset_eq]
  omega

/-- The first 1024 completion entries end where the submission entries begin. -/
theorem cqSlot_writeSqe (m : ℕ → ℕ) {i k : ℕ} (opc prp1 cdw10 cdw12 : ℕ) (h : k < 1024) :
    cqSlot (writeSqe m i opc prp1 cdw10 cdw12) k = cqSlot m k := by
  rw [cqSlot, cqSlot, cqeCid, cqeP, cqeCid, cqeP, writeSqe_of_ne _ _ _ _ _ (by omega)]

/-- Wherever it is, no entry's phase bit is set by the address of a buffer below 4 GiB. -/
theorem cqeP_writeSqe (m : ℕ → ℕ) (i k opc cdw10 cdw12 : ℕ) {prp1 : ℕ} (h : prp1 < 2 ^ 32)
    (hp : cqeP m k = false) : cqeP (writeSqe m i opc prp1 cdw10 cdw12) k = false := by
  have h0 : prp1 / 2 ^ 32 % 2 ^ 32 = 0 := by omega
  have hw : writeSqe m i opc prp1 cdw10 cdw12 (4 * k + 3) = m (4 * k + 3) ∨
      writeSqe m i opc prp1 cdw10 cdw12 (4 * k + 3) = 0 := by
    unfold writeSqe
    rw [sqOffset_eq, h0]
    split_ifs <;> omega
  rcases hw with hw | hw
  · rwa [cqeP, hw]
  · rw [cqeP, hw]
    rfl

/-- A submission entry keeps its words when a completion entry below it is written. -/
theorem readSqe_writeCqe (m : ℕ → ℕ) {i k : ℕ} (c : Cqe) (h : i < 1024 + 4 * k) :
    readSqe (writeCqe m i c) k = readSqe m k :=
  readSqe_congr fun _ hw => writeCqe_of_ne m c (by omega)

theorem initSqcq_cid {n t : ℕ} (ht : t < n) (h16 : t < 2 ^ 16) : (readSqe (initSqcq n) t).cid = t := by
  have hin : 4096 ≤ 4096 + 16 * t ∧ 4096 + 16 * t < 4096 + 16 * n := by omega
  have hmod : (4096 + 16 * t) % 16 = 0 := by omega
  have hdiv : (4096 + 16 * t - 4096) / 16 = t := by omega
  simp only [readSqe, initSqcq, sqOffset_eq, if_pos hin, if_pos hmod, hdiv]
  omega

/-- No completion entry has its phase bit set at first. -/
theorem initSqcq_p (n i : ℕ) : (cqSlot (initSqcq n) i).2 = false := by
  have h0 : (4 * i + 3) % 16 ≠ 0 := by omega
  have h1 : (4 * i + 3) % 16 ≠ 1 := by omega
  simp [cqSlot, cqeP, initSqcq, h0, h1]

/-! ### Positions in the completion queue -/

/-- `cq_head++`, back to 0 at `n_cqe`. -/
def nextHead (nCqe head : ℕ) : ℕ := if head + 1 = nCqe then 0 else head + 1

/-- `cq_phase ^= 1` where the head returns to 0. -/
def nextPhase (nCqe head : ℕ) (phase : Bool) : Bool := if head + 1 = nCqe then !phase else phase

theorem nextHead_mod {n : ℕ} (hn : 0 < n) (k : ℕ) : nextHead n (k % n) = (k + 1) % n :=
  (PhaseRing.succ_mod hn k).symm

theorem nextPhase_tag {n : ℕ} (hn : 0 < n) (k : ℕ) :
    nextPhase n (k % n) (PhaseRing.tag n k) = PhaseRing.tag n (k + 1) :=
  (PhaseRing.tag_succ hn k).symm

end Pthabt.Nvme
