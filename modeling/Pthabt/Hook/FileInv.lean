import Pthabt.Hook.FileImage
import Pthabt.Hook.FileIo

/-! What holds between and during the calls of `read_impl` and `write_impl`. Each byte that was
written is where the drives hold it or will hold it; a write in progress has still to request
the rest of its range, and a read waits for the requests whose data is not in memory yet. -/

namespace Pthabt.Hook

open Lib Run Bytes Myfs Nvme

/-! ### The loops -/

/-- The loop is still to check `rid[k]`. -/
def Awaited : LoopPc → ℕ → Prop
  | .inner rqK _, k => k < rqK
  | .wait k₀ rqK _, k => k₀ ≤ k ∧ k < rqK
  | _, _ => False

section Loops

variable {deg step len : ℕ} {pc pc' : LoopPc}

/-- A request of `read_impl`. -/
theorem readStep_request {rqK j : ℕ} (h : readStep deg step len pc = (pc', some (.request rqK j))) :
    pc = .inner rqK j ∧ j < len ∧ pc' = .inner (rqK + 1) (j + step) := by
  cases pc with
  | inner rqK' j' =>
    simp only [readStep] at h
    split_ifs at h with h1 h2
    · cases h
    · cases h
      exact ⟨rfl, by omega, rfl⟩
    · cases h
  | wait k rqK' j' =>
    simp only [readStep] at h
    split_ifs at h <;> cases h
  | outer j' => cases h
  | done => cases h

/-- A request of `write_impl`. -/
theorem writeStep_request {rqK j : ℕ} (h : writeStep deg step len pc = (pc', some (.request rqK j))) :
    pc = .inner rqK j ∧ (pc' = .wait 0 rqK (j + step) ∨ pc' = .inner (rqK + 1) (j + step)) := by
  cases pc with
  | inner rqK' j' =>
    simp only [writeStep] at h
    split_ifs at h with h1 h2
    · cases h
      exact ⟨rfl, .inl rfl⟩
    · cases h
      exact ⟨rfl, .inr rfl⟩
    · cases h
  | wait k rqK' j' =>
    simp only [writeStep] at h
    split_ifs at h <;> cases h
  | outer j' => cases h
  | done => cases h

/-- Where a loop waits for a request. -/
structure Waits (pc pc' : LoopPc) (k : ℕ) : Prop where
  awaited : Awaited pc k
  rest : ∀ k', Awaited pc k' → k' = k ∨ Awaited pc' k'
  back : ∀ k', Awaited pc' k' → Awaited pc k'

theorem waits_wait {k rqK j : ℕ} (h : k < rqK) : Waits (.wait k rqK j) (.wait (k + 1) rqK j) k where
  awaited := ⟨le_rfl, h⟩
  rest k' hk' := by
    simp only [Awaited] at hk' ⊢
    omega
  back k' hk' := by
    simp only [Awaited] at hk' ⊢
    omega

theorem readStep_check {k : ℕ} (h : readStep deg step len pc = (pc', some (.check k))) :
    Waits pc pc' k ∧ progress len pc' = progress len pc := by
  cases pc with
  | inner rqK' j' =>
    simp only [readStep] at h
    split_ifs at h <;> cases h
  | wait k' rqK' j' =>
    simp only [readStep] at h
    split_ifs at h with hlt
    · cases h
      exact ⟨waits_wait hlt, rfl⟩
    · cases h
  | outer j' => cases h
  | done => cases h

theorem writeStep_check {k : ℕ} (h : writeStep deg step len pc = (pc', some (.check k))) :
    Waits pc pc' k := by
  cases pc with
  | inner rqK' j' =>
    simp only [writeStep] at h
    split_ifs at h <;> cases h
  | wait k' rqK' j' =>
    simp only [writeStep] at h
    split_ifs at h with hlt
    · cases h
      exact waits_wait hlt
    · cases h
  | outer j' => cases h
  | done => cases h

/-- Where a loop moves on by itself it waits for the same requests. -/
theorem readStep_quiet (h : readStep deg step len pc = (pc', none)) :
    (∀ k, Awaited pc k ↔ Awaited pc' k) ∧ progress len pc' ≤ progress len pc := by
  cases pc with
  | outer j =>
    simp only [readStep] at h
    split_ifs at h with hj
    · cases h
      exact ⟨fun k => ⟨False.elim, Nat.not_lt_zero k⟩, le_rfl⟩
    · cases h
      exact ⟨fun k => Iff.rfl, Nat.le_of_not_lt hj⟩
  | inner rqK j =>
    have hwait : ∀ k, Awaited (.inner rqK j) k ↔ Awaited (.wait 0 rqK j) k :=
      fun k => ⟨fun hk => ⟨Nat.zero_le k, hk⟩, fun hk => hk.2⟩
    simp only [readStep] at h
    split_ifs at h
    · cases h
      exact ⟨hwait, le_rfl⟩
    · cases h
    · cases h
      exact ⟨hwait, le_rfl⟩
  | wait k₀ rqK j =>
    simp only [readStep] at h
    split_ifs at h with hlt
    · cases h
    · cases h
      refine ⟨fun k => ⟨fun hk => ?_, False.elim⟩, le_rfl⟩
      exact hlt (lt_of_le_of_lt hk.1 hk.2)
  | done =>
    cases h
    exact ⟨fun k => Iff.rfl, le_rfl⟩

theorem writeStep_quiet (h : writeStep deg step len pc = (pc', none)) :
    ∀ k, Awaited pc k ↔ Awaited pc' k := by
  cases pc with
  | outer j =>
    simp only [writeStep] at h
    split_ifs at h with hj
    · cases h
      exact fun k => ⟨False.elim, Nat.not_lt_zero k⟩
    · cases h
      exact fun k => Iff.rfl
  | inner rqK j =>
    simp only [writeStep] at h
    split_ifs at h
    · cases h
    · cases h
    · cases h
      exact fun k => ⟨fun hk => ⟨Nat.zero_le k, hk⟩, fun hk => hk.2⟩
  | wait k₀ rqK j =>
    simp only [writeStep] at h
    split_ifs at h with hlt
    · cases h
    · cases h
      refine fun k => ⟨fun hk => ?_, False.elim⟩
      exact hlt (lt_of_le_of_lt hk.1 hk.2)
  | done =>
    cases h
    exact fun k => Iff.rfl

end Loops

/-! ### The invariant -/

/-- A configuration that the driver is laid out for, with 64-bit addresses and identifiers that fit
an `int`. -/
structure IoConfig.Valid (c : IoConfig) : Prop where
  nvme : c.nvme.Valid
  addressed : c.nvme.Addressed
  fits : c.nvme.nd * c.nvme.nCore * c.nvme.qd ≤ 2 ^ 31

/-- The bytes that were written, but those to skip, are where `disk` holds them. -/
def Recorded (nd : ℕ) (sb : Superblock numBlocks) (content : CString → ℕ → Option Byte)
    (disk : ℕ → ℕ → Byte) (skip : CString → ℕ → Prop) : Prop :=
  ∀ f x b, content f x = some b → ¬ skip f x → ∃ i < maxFiles, (sb.file i).name = f ∧
    x < (sb.file i).nBlock * blockSize ∧ byteOn disk (byteAddr nd sb i x) = b

/-- The reference count of a slot while the calls are made one after the other. -/
def refs (io : Option Io) (i : ℕ) : ℕ :=
  match io with
  | some io => if io.hookfd = i then 1 else 0
  | none => 0

/-- What holds at any time. -/
structure Common (names : CString → Prop) (c : IoConfig) (s : System) : Prop where
  driver : DriverInv c.nvme s.driver
  dir : Directory names s.fs.sb s.opened
  states : ∀ i < maxFiles, s.fs.states i = ⟨⟨(s.opened i).isSome, false⟩, refs s.io i⟩

/-- Nobody holds a lock of the queues of `core`. -/
def IdleQueues (c : IoConfig) (core : ℕ) (S : Driver) : Prop :=
  ∀ did < c.nvme.nd, (S.queue did core).pc = .idle

/-- No call is in progress: the drives hold what was written, or will once the commands of the last
write were completed. -/
structure Resting (c : IoConfig) (s : System) (core : ℕ) (A : ℕ → ℕ → Prop) (Y : ℕ → ℕ → Byte)
    (base : ℕ → ℕ) : Prop where
  core_lt : core < c.nvme.nCore
  writing : Writing c.nvme core A Y base s.driver
  idle : IdleQueues c core s.driver
  recorded : Recorded c.nvme.nd s.fs.sb s.content Y fun _ _ => False

/-- Where the ULT is in the call that a loop makes. -/
def InCall (c : IoConfig) (S : Driver) (io : Io) : Prop :=
  match io.call with
  | .loop => IdleQueues c io.core S
  | .request did rqK back => did < c.nvme.nd ∧
    (∀ d < c.nvme.nd, d ≠ did → (S.queue d io.core).pc = .idle) ∧
    ∃ j lba, io.loop c = (back, some (.request rqK j)) ∧
      (S.queue did io.core).pc.serves = some (ioRequest io.write lba io.blksz io.ioLen j io.buf)
  | .test _ k back => IdleQueues c io.core S ∧ io.loop c = (back, some (.check k))
  | .poll k back => io.loop c = (back, some (.check k)) ∧
    ∀ d < c.nvme.nd, (S.queue d io.core).pc.serves = none ∧
      (d ≠ ridDid c.nvme (io.rid k) → (S.queue d io.core).pc = .idle)

/-- A call in progress. -/
structure Calling (c : IoConfig) (s : System) (io : Io) : Prop where
  core_lt : io.core < c.nvme.nCore
  pos : io.pos % 512 = 0
  fd : ∃ f, s.opened io.hookfd = some f
  rids : ∀ k, Awaited io.pc k → ∃ did < c.nvme.nd, ∃ cid < c.nvme.qd,
    io.rid k = ridOf c.nvme did io.core cid
  call : InCall c s.driver io

/-- The requests of a read: those that returned are in memory or will be waited for. -/
structure ReadData (c : IoConfig) (X : ℕ → Byte) (base : ℕ → ℕ) (S : Driver) (io : Io) : Prop where
  reading : Reading c.nvme io.core X base S
  awaited : ∀ did < c.nvme.nd, ∀ i < (S.queue did io.core).issued, base did ≤ i →
    ((S.queue did io.core).cmd i).stage.Returned → ((S.queue did io.core).cmd i).stage = .consumed ∨
      ∃ k, Awaited io.pc k ∧ io.rid k = ridOf c.nvme did io.core ((S.queue did io.core).cmd i).cid
  covered : ∀ j, io.blksz ∣ j → j < progress io.ioLen io.pc → j < io.ioLen → ∃ did < c.nvme.nd,
    ∃ i < (S.queue did io.core).issued, base did ≤ i ∧
      ((S.queue did io.core).cmd i).req.buf = io.buf + j ∧
      ((S.queue did io.core).cmd i).req.len = reqLen io.blksz io.ioLen j

/-- What a read in progress is to bring. -/
def wanted (c : IoConfig) (s : System) (io : Io) : ℕ → Byte :=
  wantedAt s.driver.disk c.nvme.nd s.fs.sb io.hookfd io.pos io.buf

/-- A read in progress. -/
structure InRead (c : IoConfig) (s : System) (io : Io) (base : ℕ → ℕ) : Prop where
  buf : io.buf ≠ 0
  len_lt : io.len < 2 ^ 31 - 4096
  ioLen : io.ioLen = readLen ((s.fs.sb.file io.hookfd).nBlock * blockSize) io.pos io.len
  multiple : AtMultiple io.blksz io.pc
  recorded : Recorded c.nvme.nd s.fs.sb s.content s.driver.disk fun _ _ => False
  data : ReadData c (wanted c s io) base s.driver io

/-- How many bytes a write has requested. -/
def Io.requested (io : Io) : ℕ :=
  match io.call with
  | .request _ _ back => progress io.ioLen back
  | _ => progress io.ioLen io.pc

/-- The part of its range that a write has still to request. -/
def Io.skip (io : Io) (f g : CString) (x : ℕ) : Prop :=
  g = f ∧ io.pos + io.requested ≤ x ∧ x < io.pos + io.ioLen

/-- A write in progress. -/
structure InWrite (c : IoConfig) (s : System) (io : Io) (Y : ℕ → ℕ → Byte) (base : ℕ → ℕ) : Prop where
  len_lt : io.ioLen < 2 ^ 31 - 4096
  whole : 512 ∣ io.ioLen
  room : io.pos + io.ioLen ≤ maxBlocksPerFile * blockSize
  grown : io.pos + io.requested ≤ (s.fs.sb.file io.hookfd).nBlock * blockSize
  loop : LoopInv io.blksz io.ioLen io.pc
  kept : ∀ f, s.opened io.hookfd = some f → ∀ k < io.ioLen,
    s.content f (io.pos + k) = some (s.driver.user (io.buf + k))
  recorded : ∀ f, s.opened io.hookfd = some f → Recorded c.nvme.nd s.fs.sb s.content Y (io.skip f)
  writing : Writing c.nvme io.core
    (rangeAt c.nvme.nd s.fs.sb io.hookfd io.pos io.requested) Y base s.driver

/-- The invariant of a program that reads and writes files. -/
structure FileInv (names : CString → Prop) (c : IoConfig) (s : System) : Prop where
  common : Common names c s
  resting : s.io = none → ∃ core A Y base, Resting c s core A Y base
  calling : ∀ io, s.io = some io → Calling c s io
  read : ∀ io, s.io = some io → io.write = false → ∃ base, InRead c s io base
  write : ∀ io, s.io = some io → io.write = true → ∃ Y base, InWrite c s io Y base

/-! ### A call that goes on -/

section GoesOn

variable {names : CString → Prop} {c : IoConfig} {s : System} {io : Io} {S : Driver}
  {sb : Superblock numBlocks} {rid : ℕ → ℤ} {pc : LoopPc} {call : LoopCall} {base : ℕ → ℕ}

theorem Io.blksz_read (hw : io.write = false) : io.blksz = readBlksz io.pos io.ioLen := by
  rw [Io.blksz, hw]
  rfl

theorem Io.blksz_write (hw : io.write = true) : io.blksz = writeBlksz io.pos io.ioLen := by
  rw [Io.blksz, hw]
  rfl

/-- A ULT that has called nothing holds no lock. -/
theorem Calling.idle (h : Calling c s io) (hcall : io.call = .loop) : IdleQueues c io.core s.driver := by
  have hin := h.call
  unfold InCall at hin
  rwa [hcall] at hin

/-- The call in progress is at another place. -/
theorem FileInv.of_io (h : FileInv names c s) (hio : s.io = some io) (hinv : DriverInv c.nvme S)
    (hdir : Directory names sb s.opened)
    (hrids : ∀ k, Awaited pc k → ∃ did < c.nvme.nd, ∃ cid < c.nvme.qd, rid k = ridOf c.nvme did io.core cid)
    (hcall : InCall c S { io with rid := rid, pc := pc, call := call })
    (hread : io.write = false → ∃ base, InRead c
      { s with fs := { s.fs with sb := sb }, driver := S, io := some { io with rid := rid, pc := pc, call := call } }
      { io with rid := rid, pc := pc, call := call } base)
    (hwrite : io.write = true → ∃ Y base, InWrite c
      { s with fs := { s.fs with sb := sb }, driver := S, io := some { io with rid := rid, pc := pc, call := call } }
      { io with rid := rid, pc := pc, call := call } Y base) :
    FileInv names c { s with
      fs := { s.fs with sb := sb }
      driver := S
      io := some { io with rid := rid, pc := pc, call := call } } := by
  have hcalling := h.calling io hio
  refine ⟨⟨hinv, hdir, fun i hi => ?_⟩, nofun, ?_, ?_, ?_⟩
  · have hstate := h.common.states i hi
    rw [hio] at hstate
    exact hstate
  · intro io' hio'
    cases hio'
    exact ⟨hcalling.core_lt, hcalling.pos, hcalling.fd, hrids, hcall⟩
  · intro io' hio' hw
    cases hio'
    exact hread hw
  · intro io' hio' hw
    cases hio'
    exact hwrite hw

/-- A read, where the drives hold what they held. -/
theorem InRead.goesOn (h : InRead c s io base) (hdisk : S.disk = s.driver.disk) (hmul : AtMultiple io.blksz pc)
    (hdata : ReadData c (wanted c s io) base S { io with rid := rid, pc := pc, call := call }) :
    InRead c { s with driver := S, io := some { io with rid := rid, pc := pc, call := call } }
      { io with rid := rid, pc := pc, call := call } base := by
  refine ⟨h.buf, h.len_lt, h.ioLen, hmul, ?_, ?_⟩
  · dsimp only
    rw [hdisk]
    exact h.recorded
  · unfold wanted
    dsimp only
    rw [hdisk]
    exact hdata

theorem InWrite.blksz_dvd {Y : ℕ → ℕ → Byte} (h : InWrite c s io Y base) (hw : io.write = true) :
    io.blksz ∣ io.ioLen := by
  rw [Io.blksz_write hw]
  exact writeBlksz_dvd h.whole

theorem InWrite.loop_next {Y : ℕ → ℕ → Byte} (h : InWrite c s io Y base) (hw : io.write = true) :
    LoopInv io.blksz io.ioLen (writeStep c.writeDeg io.blksz io.ioLen io.pc).1 :=
  loopInv_next h.loop (h.blksz_dvd hw)

/-- A write, that has requested as much and whose bytes are where they were. -/
theorem InWrite.goesOn {Y : ℕ → ℕ → Byte} (h : InWrite c s io Y base) (hu : S.user = s.driver.user)
    (hreq : Io.requested { io with rid := rid, pc := pc, call := call } = io.requested)
    (hloop : LoopInv io.blksz io.ioLen pc)
    (hwriting : Writing c.nvme io.core
      (rangeAt c.nvme.nd s.fs.sb io.hookfd io.pos io.requested) Y base S) :
    InWrite c { s with driver := S, io := some { io with rid := rid, pc := pc, call := call } }
      { io with rid := rid, pc := pc, call := call } Y base := by
  refine ⟨h.len_lt, h.whole, h.room, ?_, hloop, fun f hf k hk => ?_, fun f hf => ?_, ?_⟩
  · rw [hreq]
    exact h.grown
  · dsimp only
    rw [hu]
    exact h.kept f hf k hk
  · have hskip : Io.skip { io with rid := rid, pc := pc, call := call } f = io.skip f := by
      unfold Io.skip
      rw [hreq]
    rw [hskip]
    exact h.recorded f hf
  · rw [hreq]
    exact hwriting

end GoesOn

end Pthabt.Hook
