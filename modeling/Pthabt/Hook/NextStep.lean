import Pthabt.Hook.FileLoop

/-! What the next step of a call of `read_impl` or `write_impl` can be, for all that is said of runs of
such calls. -/

namespace Pthabt.Hook

open Lib Run Myfs Nvme

variable {c : IoConfig} {s s' : System} {io : Io}

/-- What the next step of a call can be. -/
inductive Goes (c : IoConfig) (s : System) (io : Io) : System → Prop where
  | returns (hcall : io.call = .loop) (hpc : io.pc = .done) :
      Goes c s io { s with fs := myfsDecrementRef s.fs io.hookfd, io := none }
  | moves {back : LoopPc} (hcall : io.call = .loop) (hpc : io.pc ≠ .done) (hl : io.loop c = (back, none)) :
      Goes c s io { s with io := some (io.resume back) }
  | requests {back : LoopPc} {did rqK j : ℕ} {o : DriverStep} {r : Request} {sb : Superblock numBlocks}
      (hcall : io.call = .loop) (hpc : io.pc ≠ .done) (hl : io.loop c = (back, some (.request rqK j)))
      (hon : o.on = .request r) (hd : o.did c.nvme < c.nvme.nd) (hcore : o.core c.nvme = io.core) :
      Goes c s io { s with
        fs := { s.fs with sb := sb }
        driver := o.next c.nvme s.driver
        io := some { io with call := .request did rqK back } }
  | checks {back : LoopPc} {k : ℕ} (hcall : io.call = .loop) (hpc : io.pc ≠ .done)
      (hl : io.loop c = (back, some (.check k))) :
      Goes c s io { s with io := some { io with call := .test false k back } }
  | rings {back : LoopPc} {did rqK cid : ℕ} {r : Request} (hcall : io.call = .request did rqK back)
      (hbell : (s.driver.queue did io.core).pc = .doorbell r cid) :
      Goes c s io { s with
        driver := (DriverStep.host did io.core).next c.nvme s.driver
        io := some (io.returned c did rqK cid back) }
  | inside {back : LoopPc} {did rqK : ℕ} (hcall : io.call = .request did rqK back) :
      Goes c s io { s with driver := (DriverStep.host did io.core).next c.nvme s.driver }
  | finds {again : Bool} {k : ℕ} {back : LoopPc} (hcall : io.call = .test again k back)
      (hdone : nvmeDone c.nvme s.driver (io.rid k)) :
      Goes c s io { s with io := some (io.resume back) }
  | retries {k : ℕ} {back : LoopPc} (hcall : io.call = .test true k back)
      (hdone : ¬ nvmeDone c.nvme s.driver (io.rid k)) :
      Goes c s io { s with io := some { io with call := .test false k back } }
  | enters {k : ℕ} {back : LoopPc} (hcall : io.call = .test false k back)
      (hdone : ¬ nvmeDone c.nvme s.driver (io.rid k)) :
      Goes c s io { s with
        driver := (DriverStep.nvmeCheck (io.rid k)).next c.nvme s.driver
        io := some { io with call := .poll k back } }
  | leaves {k : ℕ} {back : LoopPc} (hcall : io.call = .poll k back)
      (hpc : (s.driver.queue (ridDid c.nvme (io.rid k)) (ridCore c.nvme (io.rid k))).pc = .idle) :
      Goes c s io { s with io := some { io with call := .test true k back } }
  | polls {k : ℕ} {back : LoopPc} (hcall : io.call = .poll k back)
      (hpc : (s.driver.queue (ridDid c.nvme (io.rid k)) (ridCore c.nvme (io.rid k))).pc ≠ .idle) :
      Goes c s io { s with
        driver := (DriverStep.host (ridDid c.nvme (io.rid k)) (ridCore c.nvme (io.rid k))).next c.nvme
          s.driver }

theorem goes_request (hnd : 1 ≤ c.nvme.nd) (hcall : io.call = .loop) (hpc : io.pc ≠ .done) {rqK j : ℕ}
    {back : LoopPc} (hl : io.loop c = (back, some (.request rqK j)))
    (h : s.request c io rqK j back = .ok s') : Goes c s io s' := by
  have hd (lba : ℕ) : reqDid c.nvme.nd lba < c.nvme.nd := Nat.mod_lt _ hnd
  unfold System.request at h
  by_cases hlt : j + io.blksz < 2 ^ 31
  · rw [if_pos hlt] at h
    rcases hget : myfsGetLba s.fs.sb io.hookfd ((io.pos + j) % 2 ^ 64) io.write with _ | ⟨sb, _ | lba⟩
    · rw [hget] at h
      cases h
    · rw [hget] at h
      cases h
    · rw [hget] at h
      dsimp only at h
      split_ifs at h
      · cases h
        exact .requests (o := .nvmeWriteReq ..) hcall hpc hl rfl (hd lba) rfl
      · cases h
        exact .requests (o := .nvmeReadReq ..) hcall hpc hl rfl (hd lba) rfl
  · rw [if_neg hlt] at h
    cases h

theorem goes_inRequest {did rqK : ℕ} {back : LoopPc} (hcall : io.call = .request did rqK back) :
    Goes c s io (s.inRequest c io did rqK back) := by
  by_cases hbell : ∃ r cid, (s.driver.queue did io.core).pc = .doorbell r cid
  · obtain ⟨r, cid, hbell⟩ := hbell
    rw [inRequest_of_doorbell hbell]
    exact .rings hcall hbell
  · push Not at hbell
    rw [inRequest_of_ne hbell]
    exact .inside hcall

theorem goes_test {again : Bool} {k : ℕ} {back : LoopPc} (hcall : io.call = .test again k back)
    (h : s.test c io again k back = .ok s') : Goes c s io s' := by
  unfold System.test at h
  by_cases hrid : 0 ≤ io.rid k ∧ ridDid c.nvme (io.rid k) < c.nvme.nd
  · rw [if_pos hrid] at h
    by_cases hdone : nvmeDone c.nvme s.driver (io.rid k)
    · rw [if_pos hdone] at h
      cases h
      exact .finds hcall hdone
    · rw [if_neg hdone] at h
      cases again with
      | true =>
        cases h
        exact .retries hcall hdone
      | false =>
        cases h
        exact .enters hcall hdone
  · rw [if_neg hrid] at h
    cases h

theorem goes_poll {k : ℕ} {back : LoopPc} (hcall : io.call = .poll k back) :
    Goes c s io (s.poll c io k back) := by
  by_cases hpc : (s.driver.queue (ridDid c.nvme (io.rid k)) (ridCore c.nvme (io.rid k))).pc = .idle
  · rw [poll_of_idle hpc]
    exact .leaves hcall hpc
  · rw [poll_of_ne hpc]
    exact .polls hcall hpc

theorem goes_next (hnd : 1 ≤ c.nvme.nd) (hio : s.io = some io) (h : s.next c = .ok s') : Goes c s io s' := by
  unfold System.next at h
  rw [hio] at h
  dsimp only at h
  cases hcall : io.call with
  | request did rqK back =>
    rw [hcall] at h
    cases h
    exact goes_inRequest hcall
  | test again k back =>
    rw [hcall] at h
    exact goes_test hcall h
  | poll k back =>
    rw [hcall] at h
    cases h
    exact goes_poll hcall
  | loop =>
    rw [hcall] at h
    dsimp only at h
    unfold System.loop at h
    by_cases hpc : io.pc = .done
    · rw [if_pos hpc] at h
      cases h
      exact .returns hcall hpc
    · rw [if_neg hpc] at h
      rcases hl : io.loop c with ⟨back, _ | ⟨rqK, j⟩ | k⟩
      · rw [hl] at h
        cases h
        exact .moves hcall hpc hl
      · rw [hl] at h
        exact goes_request hnd hcall hpc hl h
      · rw [hl] at h
        cases h
        exact .checks hcall hpc hl

end Pthabt.Hook
