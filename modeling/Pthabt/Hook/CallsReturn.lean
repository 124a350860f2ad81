import Pthabt.Hook.NextStep
import Pthabt.Hook.ReadAfterWrite
import Pthabt.Nvme.Progress

/-! No call of `read_impl` or `write_impl` hangs: wherever it is, the ULT and the drives can bring it
to its end by themselves, unless it is a write that finds no free block. A ULT that waits polls a
queue until a completion arrives, so the argument counts what the drives have still to do. -/

namespace Pthabt.Hook

open Lib Run Myfs Nvme

/-! ### What a call waits for -/

/-- `READ_DEG` or `WRITE_DEG`. -/
def Io.deg (c : IoConfig) (io : Io) : ℕ := if io.write then c.writeDeg else c.readDeg

/-- A command of a queue of `core` has this identifier. -/
def Asked (c : IoConfig) (S : Driver) (core : ℕ) (rid : ℤ) : Prop :=
  ∃ did < c.nvme.nd, ∃ i < (S.queue did core).issued, rid = ridOf c.nvme did core ((S.queue did core).cmd i).cid

/-- Locks are held for the call in progress only, and it waits for commands that were issued. -/
structure Tracked (c : IoConfig) (s : System) : Prop where
  flags : s.driver.Flagged c.nvme
  held : ∀ did < c.nvme.nd, ∀ core < c.nvme.nCore, (s.driver.queue did core).pc ≠ .idle →
    ∃ io, s.io = some io ∧ io.core = core
  batch_le : ∀ io, s.io = some io → batch io.pc ≤ io.deg c
  asked : ∀ io, s.io = some io → ∀ k, Awaited io.pc k → Asked c s.driver io.core (io.rid k)

/-- What a step on the queues of `core` leaves. -/
structure Leaves (c : IoConfig) (core : ℕ) (S S' : Driver) : Prop where
  flags : S.Flagged c.nvme → S'.Flagged c.nvme
  asked : ∀ rid, Asked c S core rid → Asked c S' core rid
  pc : ∀ did k, k ≠ core → (S'.queue did k).pc = (S.queue did k).pc

section Tracked

variable {names : CString → Prop} {c : IoConfig} {s s' : System} {io : Io} {S : Driver} {core : ℕ}

theorem Asked.next (hinv : DriverInv c.nvme S) (hlt : core < c.nvme.nCore) {rid : ℤ}
    (h : Asked c S core rid) (o : DriverStep) : Asked c (o.next c.nvme S) core rid := by
  obtain ⟨did, hd, i, hi, hrid⟩ := h
  obtain ⟨hi', hcid⟩ := hinv.issued_next o hd hlt hi
  exact ⟨did, hd, i, hi', by rw [hcid]; exact hrid⟩

theorem Leaves.rfl : Leaves c core S S := ⟨id, fun _ => id, fun _ _ _ => Eq.refl _⟩

theorem Leaves.next (hinv : DriverInv c.nvme S) (hlt : core < c.nvme.nCore) {o : DriverStep}
    (hcore : o.core c.nvme = core) : Leaves c core S (o.next c.nvme S) where
  flags h := h.next hinv
  asked _ h := h.next hinv hlt o
  pc did k hne := by rw [queue_next_of_ne c.nvme o S fun he => hne (he.2.trans hcore)]

theorem writeStep_batch_le {deg : ℕ} {pc : LoopPc} (step len : ℕ) (h : batch pc ≤ deg) :
    batch (writeStep deg step len pc).1 ≤ deg := by
  cases pc with
  | outer j =>
    simp only [writeStep]
    split_ifs <;> exact Nat.zero_le deg
  | inner rqK j =>
    simp only [writeStep]
    split_ifs with h1 h2
    · exact h
    · exact h1
    · exact h
  | wait k rqK j =>
    simp only [writeStep]
    split_ifs
    · exact h
    · exact Nat.zero_le deg
  | done => exact h

theorem Io.deg_read (hw : io.write = false) : io.deg c = c.readDeg := by
  rw [Io.deg, hw]
  rfl

theorem Io.deg_write (hw : io.write = true) : io.deg c = c.writeDeg := by
  rw [Io.deg, hw]
  rfl

theorem Io.loop_batch {back : LoopPc} {act : Option LoopAct} (hl : io.loop c = (back, act))
    (h : batch io.pc ≤ io.deg c) : batch back ≤ io.deg c := by
  cases hw : io.write with
  | false =>
    rw [Io.deg_read hw] at h ⊢
    have hle := readStep_batch_le io.blksz io.ioLen h
    rwa [Io.loop_read hl hw] at hle
  | true =>
    rw [Io.deg_write hw] at h ⊢
    have hle := writeStep_batch_le io.blksz io.ioLen h
    rwa [Io.loop_write hl hw] at hle

/-- Where a loop moves on by itself it waits for nothing else. -/
theorem Io.loop_quiet {back : LoopPc} (hl : io.loop c = (back, none)) (k : ℕ) (hk : Awaited back k) :
    Awaited io.pc k := by
  cases hw : io.write with
  | false => exact ((readStep_quiet (Io.loop_read hl hw)).1 k).mpr hk
  | true => exact (writeStep_quiet (Io.loop_write hl hw) k).mpr hk

/-- A test of `done` is for the loop's next step. -/
theorem Calling.loop_test (h : Calling c s io) {again : Bool} {k : ℕ} {back : LoopPc}
    (hcall : io.call = .test again k back) : io.loop c = (back, some (.check k)) := by
  have hin := h.call
  unfold InCall at hin
  rw [hcall] at hin
  exact hin.2

theorem Calling.loop_poll (h : Calling c s io) {k : ℕ} {back : LoopPc} (hcall : io.call = .poll k back) :
    io.loop c = (back, some (.check k)) := by
  have hin := h.call
  unfold InCall at hin
  rw [hcall] at hin
  exact hin.1

/-- The call goes on. -/
theorem Tracked.goesOn (h : Tracked c s) (hio : s.io = some io) {io' : Io} (hio' : s'.io = some io')
    (hl : Leaves c io.core s.driver s'.driver) (hcore : io'.core = io.core)
    (hbatch : batch io'.pc ≤ io'.deg c)
    (hasked : ∀ k, Awaited io'.pc k → Asked c s'.driver io.core (io'.rid k)) : Tracked c s' where
  flags := hl.flags h.flags
  held did hd core hk hpc := by
    refine ⟨io', hio', ?_⟩
    by_contra hne
    rw [hcore] at hne
    rw [hl.pc did core fun he => hne he.symm] at hpc
    obtain ⟨io₀, hio₀, hcore₀⟩ := h.held did hd core hk hpc
    rw [hio] at hio₀
    cases hio₀
    exact hne hcore₀
  batch_le io₀ hio₀ := by
    rw [hio'] at hio₀
    cases hio₀
    exact hbatch
  asked io₀ hio₀ := by
    rw [hio'] at hio₀
    cases hio₀
    rw [hcore]
    exact hasked

/-- The queues change, and the call is where it was. -/
theorem Tracked.inside (h : Tracked c s) (hio : s.io = some io) (hl : Leaves c io.core s.driver S) {call : LoopCall} :
    Tracked c { s with driver := S, io := some { io with call := call } } :=
  h.goesOn hio rfl hl rfl (h.batch_le io hio) fun k hk => hl.asked _ (h.asked io hio k hk)

/-- The loop goes on at `back`. -/
theorem Tracked.resume (h : Tracked c s) (hio : s.io = some io) {back : LoopPc} {act : Option LoopAct}
    (hl : io.loop c = (back, act)) (hback : ∀ k, Awaited back k → Awaited io.pc k) :
    Tracked c { s with io := some (io.resume back) } := by
  have hbatch : batch back ≤ io.deg c := Io.loop_batch hl (h.batch_le io hio)
  exact h.goesOn hio rfl .rfl rfl hbatch fun k hk => h.asked io hio k (hback k hk)

/-- A request returns the identifier of a command. -/
theorem Tracked.ring (h : Tracked c s) (hinv : DriverInv c.nvme s.driver) (hcalling : Calling c s io)
    (hio : s.io = some io) {did rqK cid : ℕ} {back : LoopPc} {r : Request}
    (hcall : io.call = .request did rqK back) (hbell : (s.driver.queue did io.core).pc = .doorbell r cid) :
    Tracked c { s with
      driver := (DriverStep.host did io.core).next c.nvme s.driver
      io := some (io.returned c did rqK cid back) } := by
  have hlt := hcalling.core_lt
  have hin := hcalling.call
  unfold InCall at hin
  rw [hcall] at hin
  obtain ⟨hd, -, j, lba, hl, -⟩ := hin
  obtain ⟨hpc, hawait⟩ := Io.loop_request hl
  have hleaves : Leaves c io.core s.driver ((DriverStep.host did io.core).next c.nvme s.driver) :=
    .next hinv hlt rfl
  obtain ⟨hi, hlast⟩ := (hinv did hd _ hlt).ringing hbell
  have hnew : Asked c s.driver io.core (ridOf c.nvme did io.core cid) :=
    ⟨did, hd, _, hi, by rw [hlast]⟩
  have hbatch : batch back ≤ io.deg c := Io.loop_batch hl (h.batch_le io hio)
  refine h.goesOn hio rfl hleaves rfl hbatch fun k hk => ?_
  refine rids_update (P := fun x => Asked c ((DriverStep.host did io.core).next c.nvme s.driver) io.core x)
    (fun k hk => hleaves.asked _ (h.asked io hio k ?_)) (hleaves.asked _ hnew) k (hawait k hk)
  rw [hpc]
  exact hk

theorem Tracked.next (h : Tracked c s) (hf : FileInv names c s) (hv : c.Valid) (hio : s.io = some io)
    (hgo : Goes c s io s') : Tracked c s' := by
  have hinv := hf.common.driver
  have hcalling := hf.calling io hio
  have hlt := hcalling.core_lt
  cases hgo with
  | returns hcall hpc =>
    refine ⟨h.flags, fun did hd core hk hne => ?_, fun io₀ hio₀ => ?_, fun io₀ hio₀ => ?_⟩
    rotate_left
    · cases hio₀
    · cases hio₀
    obtain ⟨io₀, hio₀, rfl⟩ := h.held did hd core hk hne
    rw [hio] at hio₀
    cases hio₀
    exact absurd (hcalling.idle hcall did hd) hne
  | moves hcall hpc hl => exact h.resume hio hl (Io.loop_quiet hl)
  | requests hcall hpc hl hon hd hcore =>
    have hleaves := Leaves.next hinv hlt hcore
    exact h.goesOn hio rfl hleaves rfl (h.batch_le io hio) fun k hk => hleaves.asked _ (h.asked io hio k hk)
  | checks hcall hpc hl => exact h.inside hio .rfl
  | rings hcall hbell => exact h.ring hinv hcalling hio hcall hbell
  | @inside back did rqK hcall =>
    have hleaves := Leaves.next (o := .host did io.core) hinv hlt rfl
    exact h.goesOn hio hio hleaves rfl (h.batch_le io hio) fun k hk => hleaves.asked _ (h.asked io hio k hk)
  | finds hcall hdone =>
    have hloop := hcalling.loop_test hcall
    exact h.resume hio hloop (Io.loop_check hloop).back
  | retries hcall hdone => exact h.inside hio .rfl
  | enters hcall hdone =>
    have hloop := hcalling.loop_test hcall
    exact h.inside hio (.next (o := .nvmeCheck _) hinv hlt (hcalling.rid hv hloop).2.2)
  | leaves hcall hpc => exact h.inside hio .rfl
  | @polls k back hcall hpc =>
    have hcore := (hcalling.rid hv (hcalling.loop_poll hcall)).2.2
    have hleaves := Leaves.next (o := .host (ridDid c.nvme (io.rid k)) (ridCore c.nvme (io.rid k))) hinv hlt
      hcore
    exact h.goesOn hio hio hleaves rfl (h.batch_le io hio) fun k hk => hleaves.asked _ (h.asked io hio k hk)

/-- The drives may work at any time. -/
theorem Tracked.device (h : Tracked c s) (hf : FileInv names c s) {o : DriverStep} (ho : ¬ o.IsHost) :
    Tracked c { s with driver := o.next c.nvme s.driver } where
  flags := h.flags.next hf.common.driver
  held did hd core hk hpc := by
    rw [pc_next ho] at hpc
    exact h.held did hd core hk hpc
  batch_le := h.batch_le
  asked io hio k hk := (h.asked io hio k hk).next hf.common.driver (hf.calling io hio).core_lt o

/-- The program does something between two calls. -/
theorem Tracked.between (h : Tracked c s) (hio : s.io = none) (hq : s'.driver.queue = s.driver.queue)
    (hio' : ∀ io, s'.io = some io → io.pc = .outer 0) : Tracked c s' where
  flags did hd core hk := by
    rw [hq]
    exact h.flags did hd core hk
  held did hd core hk hpc := by
    rw [hq] at hpc
    obtain ⟨io, hs, -⟩ := h.held did hd core hk hpc
    rw [hio] at hs
    cases hs
  batch_le io hs := by
    rw [hio' io hs]
    exact Nat.zero_le _
  asked io hs k hk := by
    rw [hio' io hs] at hk
    exact hk.elim

theorem tracked_start (disk : ℕ → ℕ → Byte) (user : ℕ → Byte) (sb : Superblock numBlocks) :
    Tracked c (System.start c sb disk user) where
  flags := .init c.nvme disk user
  held did _ core _ hpc := absurd rfl hpc
  batch_le io hio := by cases hio
  asked io hio := by cases hio

theorem tracked_step (hv : c.Valid) {o : FileStep} (h : Tracked c s) (hf : FileInv names c s)
    (hA : o.Admissible names c s) (hs : o.step c s = .ok s') : Tracked c s' := by
  cases o with
  | myfsOpen f =>
    have hio := (hA.1 trivial).1
    rw [FileStep.step, System.openFile] at hs
    split at hs
    · cases hs
      exact h.between hio rfl fun io hs => by rw [hio] at hs; cases hs
    · cases hs
  | myfsClose fd =>
    have hio := (hA.1 trivial).1
    cases hs
    exact h.between hio rfl fun io hs => by rw [System.closeFile, hio] at hs; cases hs
  | myfsUnlink f =>
    have hio := (hA.1 trivial).1
    cases hs
    exact h.between hio rfl fun io hs => by rw [System.unlinkFile, hio] at hs; cases hs
  | store user =>
    have hio : s.io = none := hA.2
    cases hs
    exact h.between hio rfl fun io hs => by rw [hio] at hs; cases hs
  | readImpl core hookfd len pos buf =>
    rw [FileStep.step, System.readImpl] at hs
    split_ifs at hs
    cases hs
    refine h.between (hA.1 trivial).1 rfl fun io hs => ?_
    cases hs
    rfl
  | writeImpl core hookfd len pos buf =>
    rw [FileStep.step, System.writeImpl] at hs
    split_ifs at hs
    cases hs
    refine h.between (hA.1 trivial).1 rfl fun io hs => ?_
    cases hs
    rfl
  | next =>
    cases hio : s.io with
    | none =>
      rw [FileStep.step, System.next, hio] at hs
      cases hs
      exact h
    | some io => exact h.next hf hv hio (goes_next hv.nvme.nd_pos hio hs)
  | exec did core i =>
    cases hs
    exact h.device hf (o := .exec did core i) id
  | post did core i x =>
    cases hs
    exact h.device hf (o := .post did core i x) id

end Tracked

/-! ### What is left of a call -/

/-- Where the loop goes on after the call that it is in. -/
def Io.ahead (io : Io) : LoopPc :=
  match io.call with
  | .loop => io.pc
  | .request _ _ back | .test _ _ back | .poll _ back => back

namespace System

/-- What is left of `nvme_check` besides the steps in the queue. A poll that comes to its end when the
drives are done finds the flag set. -/
def callWork (c : IoConfig) (s : System) (io : Io) : ℕ :=
  match io.call with
  | .loop | .request .. => 0
  | .test again k _ => if nvmeDone c.nvme s.driver (io.rid k) then 1 else if again then 6 else 5
  | .poll k _ =>
    if nvmeDone c.nvme s.driver (io.rid k) then 2
    else
      match (s.driver.queue (ridDid c.nvme (io.rid k)) (ridCore c.nvme (io.rid k))).pc with
      | .idle => 7
      | _ => 2

def rank (c : IoConfig) (s : System) : ℕ :=
  s.driver.rank c.nvme +
    match s.io with
    | none => 0
    | some io => 20 * stepsLeft (io.deg c) io.ioLen io.ahead + s.callWork c io + 1

end System

/-- The ULT goes on in its call, or a drive does something. -/
def FileStep.Continues : FileStep → Prop
  | .next | .exec .. | .post .. => True
  | _ => False

section Rank

variable {names : CString → Prop} {c : IoConfig} {s s' : System} {io : Io}

theorem rank_none (hio : s.io = none) : s.rank c = s.driver.rank c.nvme := by
  rw [System.rank, hio, Nat.add_zero]

theorem rank_some (hio : s.io = some io) : s.rank c =
    s.driver.rank c.nvme + (20 * stepsLeft (io.deg c) io.ioLen io.ahead + s.callWork c io + 1) := by
  rw [System.rank, hio]

/-- The queues change while the call is where it was. -/
theorem rank_driver (hio : s.io = some io) (S : Driver) : System.rank c { s with driver := S } =
    S.rank c.nvme +
      (20 * stepsLeft (io.deg c) io.ioLen io.ahead + System.callWork c { s with driver := S } io + 1) :=
  rank_some hio

theorem ahead_loop (hcall : io.call = .loop) : io.ahead = io.pc := by rw [Io.ahead, hcall]

theorem ahead_request {did rqK : ℕ} {back : LoopPc} (hcall : io.call = .request did rqK back) :
    io.ahead = back := by rw [Io.ahead, hcall]

theorem ahead_test {again : Bool} {k : ℕ} {back : LoopPc} (hcall : io.call = .test again k back) :
    io.ahead = back := by rw [Io.ahead, hcall]

theorem ahead_poll {k : ℕ} {back : LoopPc} (hcall : io.call = .poll k back) : io.ahead = back := by
  rw [Io.ahead, hcall]

theorem callWork_loop (hcall : io.call = .loop) : s.callWork c io = 0 := by rw [System.callWork, hcall]

theorem callWork_request {did rqK : ℕ} {back : LoopPc} (hcall : io.call = .request did rqK back) :
    s.callWork c io = 0 := by rw [System.callWork, hcall]

theorem callWork_test {again : Bool} {k : ℕ} {back : LoopPc} (hcall : io.call = .test again k back) :
    s.callWork c io = if nvmeDone c.nvme s.driver (io.rid k) then 1 else if again then 6 else 5 := by
  rw [System.callWork, hcall]

theorem callWork_poll_idle {k : ℕ} {back : LoopPc} (hcall : io.call = .poll k back)
    (hpc : (s.driver.queue (ridDid c.nvme (io.rid k)) (ridCore c.nvme (io.rid k))).pc = .idle) :
    s.callWork c io = if nvmeDone c.nvme s.driver (io.rid k) then 2 else 7 := by
  rw [System.callWork, hcall]
  dsimp only
  rw [hpc]

theorem callWork_poll {k : ℕ} {back : LoopPc} (hcall : io.call = .poll k back)
    (hpc : (s.driver.queue (ridDid c.nvme (io.rid k)) (ridCore c.nvme (io.rid k))).pc = .idle →
      nvmeDone c.nvme s.driver (io.rid k)) : s.callWork c io = 2 := by
  rw [System.callWork, hcall]
  dsimp only
  split_ifs with hdone
  · rfl
  · split
    · exact absurd (hpc (by assumption)) hdone
    · rfl

/-- What is left of a call depends on the flags and on who holds the locks. -/
theorem callWork_congr (hd : ∀ did core, (s'.driver.queue did core).doneFlag = (s.driver.queue did core).doneFlag)
    (hp : ∀ did core, (s'.driver.queue did core).pc = (s.driver.queue did core).pc) :
    s'.callWork c io = s.callWork c io := by
  have hdone (rid : ℤ) : nvmeDone c.nvme s'.driver rid ↔ nvmeDone c.nvme s.driver rid := by
    rw [nvmeDone, nvmeDone, hd]
  unfold System.callWork
  simp only [hdone, hp]

/-- A loop comes nearer to its end. -/
theorem FileInv.stepsLeft_lt (h : FileInv names c s) (ht : Tracked c s) (hread : 0 < c.readDeg)
    (hwrite : 0 < c.writeDeg) (hio : s.io = some io) (hpc : io.pc ≠ .done) {back : LoopPc}
    {act : Option LoopAct} (hl : io.loop c = (back, act)) :
    stepsLeft (io.deg c) io.ioLen back < stepsLeft (io.deg c) io.ioLen io.pc := by
  have hbatch := ht.batch_le io hio
  cases hw : io.write with
  | false =>
    rw [Io.deg_read hw] at hbatch ⊢
    have hstep (hlen : 0 < io.ioLen) : 0 < io.blksz := by
      rw [Io.blksz_read hw]
      exact readBlksz_pos _ hlen
    have hlt := readStep_stepsLeft hread hstep hbatch hpc
    rwa [Io.loop_read hl hw] at hlt
  | true =>
    rw [Io.deg_write hw] at hbatch ⊢
    obtain ⟨Y, base, hwr⟩ := h.write io hio hw
    have hstep : 0 < io.blksz := by
      rw [Io.blksz_write hw]
      exact writeBlksz_pos _ _
    have hinner (rqK j : ℕ) (hin : io.pc = .inner rqK j) : j < io.ioLen := by
      have hloop := hwr.loop
      rw [hin] at hloop
      exact hloop.2
    have hlt := writeStep_stepsLeft hwrite hstep hbatch hinner hpc
    rwa [Io.loop_write hl hw] at hlt

/-- When the drives are done, a poll that ends has found the completion that it waits for. -/
theorem done_of_polled (h : FileInv names c s) (ht : Tracked c s) (hv : c.Valid) (hr : s.driver.Ready c.nvme)
    (hio : s.io = some io) {k : ℕ} {back : LoopPc} (hcall : io.call = .poll k back)
    (hpc : (s.driver.queue (ridDid c.nvme (io.rid k)) io.core).pc ≠ .idle)
    (hidle : (((DriverStep.host (ridDid c.nvme (io.rid k)) io.core).next c.nvme s.driver).queue
      (ridDid c.nvme (io.rid k)) io.core).pc = .idle) :
    nvmeDone c.nvme ((DriverStep.host (ridDid c.nvme (io.rid k)) io.core).next c.nvme s.driver) (io.rid k) := by
  have hcalling := h.calling io hio
  have hlt := hcalling.core_lt
  have hl := hcalling.loop_poll hcall
  obtain ⟨h0, hd, hcore⟩ := hcalling.rid hv hl
  have hin := hcalling.call
  unfold InCall at hin
  rw [hcall] at hin
  have hserves := (hin.2 _ hd).1
  have hinv := h.common.driver _ hd _ hlt
  have hport := port_next c.nvme (.host (ridDid c.nvme (io.rid k)) io.core) s.driver
  have hq : ((DriverStep.host (ridDid c.nvme (io.rid k)) io.core).next c.nvme s.driver).queue
      (ridDid c.nvme (io.rid k)) io.core =
        (hostStep (c.nvme.qp (ridDid c.nvme (io.rid k)) io.core)
          (s.driver.port (ridDid c.nvme (io.rid k)) io.core)).queue := congrArg Port.queue hport
  obtain ⟨did, hdid, i, hi, hrid⟩ := ht.asked io hio k (Io.loop_check hl).awaited
  obtain ⟨hdec, -, hcid⟩ := rid_decode hv.fits hdid hlt ((h.common.driver did hdid _ hlt).slots.cid_lt i hi)
  rw [← hrid] at hdec hcid
  subst hdec
  refine ⟨h0, ?_⟩
  rw [hcore, hcid, hq]
  rw [hq] at hidle
  exact hinv.done_of_host (s := s.driver.port (ridDid c.nvme (io.rid k)) io.core) (hv.nvme.qp _ hd _ hlt)
    (ht.flags _ hd _ hlt) (hr _ hd _ hlt) hpc hserves hidle hi

/-- When the drives are done, each step brings a call nearer to its end. -/
theorem Goes.rank_lt (hgo : Goes c s io s') (h : FileInv names c s) (ht : Tracked c s) (hv : c.Valid)
    (hread : 0 < c.readDeg) (hwrite : 0 < c.writeDeg) (hr : s.driver.Ready c.nvme) (hio : s.io = some io) :
    s'.rank c < s.rank c := by
  have hcalling := h.calling io hio
  have hlt := hcalling.core_lt
  have hinv := h.common.driver
  have hhost {did : ℕ} (hd : did < c.nvme.nd) (hpc : (s.driver.queue did io.core).pc ≠ .idle) :=
    host_rank_next_lt hinv hv.nvme ht.flags hr hd hlt hpc
  rw [rank_some hio]
  cases hgo with
  | returns hcall hpc =>
    rw [rank_none rfl]
    dsimp only
    omega
  | @moves back hcall hpc hl =>
    have hleft := h.stepsLeft_lt ht hread hwrite hio hpc hl
    rw [rank_some rfl, callWork_loop rfl, callWork_loop hcall, ahead_loop hcall]
    change _ + (20 * stepsLeft (io.deg c) io.ioLen back + 0 + 1) < _
    dsimp only
    omega
  | @requests back did rqK j o r sb hcall hpc hl hon hd hcore =>
    have hleft := h.stepsLeft_lt ht hread hwrite hio hpc hl
    have hrank := rank_request_le (S := s.driver) hon hd (hcore.symm ▸ hlt)
      (hcore.symm ▸ hcalling.idle hcall _ hd)
    rw [rank_some rfl, callWork_request rfl, callWork_loop hcall, ahead_loop hcall]
    change _ + (20 * stepsLeft (io.deg c) io.ioLen back + 0 + 1) < _
    dsimp only
    omega
  | @checks back k hcall hpc hl =>
    have hleft := h.stepsLeft_lt ht hread hwrite hio hpc hl
    rw [rank_some rfl, callWork_test rfl, callWork_loop hcall, ahead_loop hcall]
    change _ + (20 * stepsLeft (io.deg c) io.ioLen back + _ + 1) < _
    dsimp only
    split_ifs <;> omega
  | @rings back did rqK cid r hcall hbell =>
    have hin := hcalling.call
    unfold InCall at hin
    rw [hcall] at hin
    have hrank := hhost hin.1 (by rw [hbell]; exact fun hb => by cases hb)
    rw [rank_some rfl, callWork_loop rfl, callWork_request hcall, ahead_request hcall]
    change _ + (20 * stepsLeft (io.deg c) io.ioLen back + 0 + 1) < _
    dsimp only
    omega
  | @inside back did rqK hcall =>
    have hin := hcalling.call
    unfold InCall at hin
    rw [hcall] at hin
    obtain ⟨hd, -, j, lba, -, hserves⟩ := hin
    have hrank := hhost hd (fun hidle => by rw [hidle] at hserves; cases hserves)
    rw [rank_driver hio, callWork_request hcall, callWork_request hcall]
    omega
  | @finds again k back hcall hdone =>
    rw [rank_some rfl, callWork_loop rfl, callWork_test hcall, if_pos hdone, ahead_test hcall]
    change _ + (20 * stepsLeft (io.deg c) io.ioLen back + 0 + 1) < _
    dsimp only
    omega
  | @retries k back hcall hdone =>
    rw [rank_some rfl, callWork_test rfl, callWork_test hcall, ahead_test hcall]
    change _ + (20 * stepsLeft (io.deg c) io.ioLen back + (if nvmeDone c.nvme s.driver (io.rid k) then 1 else _) + 1) < _
    rw [if_neg hdone, if_neg hdone]
    simp only [Bool.false_eq_true, if_false, if_true]
    omega
  | @enters k back hcall hdone =>
    obtain ⟨-, hd, hcore⟩ := hcalling.rid hv (hcalling.loop_test hcall)
    have hin := hcalling.call
    unfold InCall at hin
    rw [hcall] at hin
    have hidle : (s.driver.queue (ridDid c.nvme (io.rid k)) (ridCore c.nvme (io.rid k))).pc = .idle := by
      rw [hcore]
      exact hin.1 _ hd
    have hrank := rank_check_le hd (hcore.symm ▸ hlt) hidle
    have hpc : (((DriverStep.nvmeCheck (io.rid k)).next c.nvme s.driver).queue
        (ridDid c.nvme (io.rid k)) (ridCore c.nvme (io.rid k))).pc = .checkCq none := by
      have hport := port_next c.nvme (DriverStep.nvmeCheck (io.rid k)) s.driver
      exact congrArg (fun p : Port => p.queue.pc) hport
    rw [rank_some rfl, callWork_poll rfl fun hi => ?_, callWork_test hcall, if_neg hdone, ahead_test hcall]
    · change _ + (20 * stepsLeft (io.deg c) io.ioLen back + 2 + 1) < _
      simp only [Bool.false_eq_true, if_false]
      omega
    · cases hpc.symm.trans hi
  | @leaves k back hcall hpc =>
    rw [rank_some rfl, callWork_test rfl, callWork_poll_idle hcall hpc, ahead_poll hcall]
    change _ + (20 * stepsLeft (io.deg c) io.ioLen back + (if nvmeDone c.nvme s.driver (io.rid k) then 1 else _) + 1) < _
    simp only [if_true]
    split_ifs <;> omega
  | @polls k back hcall hpc =>
    obtain ⟨-, hd, hcore⟩ := hcalling.rid hv (hcalling.loop_poll hcall)
    have hdone := done_of_polled h ht hv hr hio hcall
    rw [← hcore] at hdone hhost
    have hrank := hhost hd hpc
    rw [rank_driver hio, callWork_poll hcall fun hi => absurd hi hpc,
      callWork_poll hcall (hdone hpc)]
    omega

/-- While a drive works a call stays where it is. -/
theorem rank_device_lt {o : DriverStep} (ho : ¬ o.IsHost)
    (hlt : (o.next c.nvme s.driver).rank c.nvme < s.driver.rank c.nvme) :
    System.rank c { s with driver := o.next c.nvme s.driver } < s.rank c := by
  obtain hio | ⟨io, hio⟩ := Option.eq_none_or_eq_some s.io
  · have hnone : System.rank c { s with driver := o.next c.nvme s.driver } = _ := rank_none hio
    rw [hnone, rank_none hio]
    exact hlt
  · have hwork : System.callWork c { s with driver := o.next c.nvme s.driver } io = s.callWork c io :=
      callWork_congr (doneFlag_next ho) (pc_next ho)
    rw [rank_driver hio, rank_some hio, hwork]
    omega

/-- A call that has not come to its end, or a drive, can go on. -/
theorem FileInv.continues (h : FileInv names c s) (ht : Tracked c s) (hn : Distinguished names) (hv : c.Valid)
    (hread : 0 < c.readDeg) (hwrite : 0 < c.writeDeg) (hend : ¬ (s.Quiet c ∨ ¬ s.RingLasts c)) :
    ∃ o s', (o.Continues ∧ o.Admissible names c s) ∧ FileStep.step c o s = .ok s' ∧
      (FileInv names c s' ∧ Tracked c s') ∧ s'.rank c < s.rank c := by
  push Not at hend
  obtain ⟨hquiet, hring⟩ := hend
  -- a step that the invariants are kept by
  have hstep {o : FileStep} (ho : o.Continues) (hA : o.Admissible names c s)
      (hlt : ∀ s', FileStep.step c o s = .ok s' → s'.rank c < s.rank c) : ∃ o s',
        (o.Continues ∧ o.Admissible names c s) ∧ FileStep.step c o s = .ok s' ∧
          (FileInv names c s' ∧ Tracked c s') ∧ s'.rank c < s.rank c := by
    obtain ⟨s', hs, h'⟩ := fileInv_step hn hv o s h hA
    exact ⟨o, s', ⟨ho, hA⟩, hs, ⟨h', tracked_step hv ht h hA hs⟩, hlt s' hs⟩
  by_cases hr : s.driver.Ready c.nvme
  · cases hio : s.io with
    | none =>
      refine absurd ⟨hio, fun did hd core hk i hi => ?_⟩ hquiet
      refine (h.common.driver did hd core hk).completed (hr did hd core hk) ?_ hi
      by_contra hpc
      obtain ⟨io, hs, -⟩ := ht.held did hd core hk hpc
      rw [hio] at hs
      cases hs
    | some io =>
      refine hstep (o := .next) trivial ⟨False.elim, hring⟩ fun s' hs => ?_
      exact (goes_next hv.nvme.nd_pos hio hs).rank_lt h ht hv hread hwrite hr hio
  · obtain ⟨o, ho, hA, hlt⟩ := exists_device hr
    have hrank := rank_device_lt (s := s) ho hlt
    cases o with
    | exec did core i =>
      refine hstep (o := .exec did core i) trivial ⟨False.elim, hA⟩ fun s' hs => ?_
      cases hs
      exact hrank
    | post did core i x =>
      refine hstep (o := .post did core i x) trivial ⟨False.elim, hA⟩ fun s' hs => ?_
      cases hs
      exact hrank
    | _ => exact absurd trivial ho

end Rank

/-! ### Every call can return -/

/-- The beginning of a write of a sector, up to the middle of its request. -/
def halfwayWrite : List FileStep := .writeImpl 0 0 512 0 8192 :: List.replicate 5 .next

end Pthabt.Hook
