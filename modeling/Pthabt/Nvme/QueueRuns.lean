import Pthabt.Nvme.Driver

/-! Runs in which a queue serves one request at a time: a request that finds its slot free,
and a completion that is the only one to consume. They are runs of the driver too. -/

namespace Pthabt.Nvme

open Lib Bytes Run

/-! ### Runs of one queue -/

/-- Steps of one queue as steps of a run. -/
def QueueStep.outcome (c : QpConfig) (o : QueueStep) (s : Port) : Outcome Port := .ok (o.step c s)

/-- A request that finds its slot free, up to its doorbell. -/
def issueSteps (r : Request) : List QueueStep := [.request r, .host, .host, .host]

/-- Command `i` is executed and completed, and its completion is the only one to consume. -/
def completeSteps (i : ℕ) (x : Cqe) : List QueueStep :=
  [.exec i, .post i x, .call, .host, .host, .host, .host]

/-- The queue after `issueSteps`. -/
def issueQueue (c : QpConfig) (r : Request) (s : Port) : Queue :=
  { s.queue with
    dma := if r.write then blit s.queue.dma s.user (c.buf4kPa s.queue.sqTail) r.buf r.len
      else s.queue.dma
    sqcq := writeSqe s.queue.sqcq s.queue.sqTail r.opc (c.buf4kPa s.queue.sqTail)
      (reqCdw10 c.nd r.lba) r.cdw12
    doneFlag := Function.update s.queue.doneFlag s.queue.sqTail 0
    rbuf := Function.update s.queue.rbuf s.queue.sqTail r.rbuf
    len := Function.update s.queue.len s.queue.sqTail r.rlen
    sqTail := (s.queue.sqTail + 1) % c.qd
    cmd := Function.update s.queue.cmd s.queue.issued ⟨r, s.queue.sqTail, .submitted⟩
    issued := s.queue.issued + 1 }

/-- The memory of a queue whose next completion is that of `cid`. -/
def completeSqcq (c : QpConfig) (cid : ℕ) (x : Cqe) (q : Queue) : ℕ → ℕ :=
  writeCqe q.sqcq (q.posted.length % c.qd)
    { x with cid := cid, p := PhaseRing.tag c.qd q.posted.length }

theorem setStage_update (cmd : ℕ → Cmd) (i : ℕ) (x : Cmd) (st : Stage) :
    setStage (Function.update cmd i x) i st = Function.update cmd i { x with stage := st } := by
  simp [setStage]

@[simp] theorem setStage_setStage (cmd : ℕ → Cmd) (i : ℕ) (st st' : Stage) :
    setStage (setStage cmd i st) i st' = setStage cmd i st' := by simp [setStage]

theorem issue_meets {c : QpConfig} {r : Request} (hr : r.Fits) {s : Port} (hpc : s.queue.pc = .idle) :
    Meets (QueueStep.outcome c) (fun o s => o.Admissible s.queue) (issueSteps r) s :=
  ⟨⟨hpc, hr⟩, trivial, trivial, trivial, trivial⟩

theorem issue_run {c : QpConfig} {r : Request} {s : Port} (hpc : s.queue.pc = .idle)
    (hfree : s.queue.doneFlag s.queue.sqTail ≠ 0) :
    run (QueueStep.outcome c) (issueSteps r) s = .ok { s with queue := issueQueue c r s } := by
  obtain ⟨q, disk, user⟩ := s
  obtain ⟨sqcq, dma, doneFlag, rbuf, len, sqTail, cqHead, cqPhase, pc, cmd, issued, posted, taken,
    copies⟩ := q
  cases hpc
  simp only at hfree
  simp [issueSteps, QueueStep.outcome, hostStep, QueueStep.step, newSqe, hfree, fill, doorbell,
    setStage_update, issueQueue]

/-- `check_cq` consumes the one completion that waits. -/
theorem poll_run {c : QpConfig} {q : Queue} {i cid : ℕ} (hget : q.posted[q.taken]? = some i)
    (hslot : cqSlot q.sqcq q.cqHead = (cid, q.cqPhase))
    (hstale : cqeP q.sqcq (nextHead c.qd q.cqHead) ≠ nextPhase c.qd q.cqHead q.cqPhase)
    {s : Port} (hq : s.queue = q) :
    ∃ copies user, hostStep c (hostStep c (hostStep c (hostStep c (QueueStep.call.step c s)))) =
      ⟨{ q with
          doneFlag := Function.update q.doneFlag cid 1
          cqHead := nextHead c.qd q.cqHead
          cqPhase := nextPhase c.qd q.cqHead q.cqPhase
          pc := .idle
          cmd := setStage q.cmd i .consumed
          taken := q.taken + 1
          copies := copies }, s.disk, user⟩ := by
  have hp : cqeP q.sqcq q.cqHead = q.cqPhase := congrArg Prod.snd hslot
  have hc : cqeCid q.sqcq q.cqHead = cid := congrArg Prod.fst hslot
  have hgetD : q.posted.getD q.taken 0 = i := by simp [List.getD, hget]
  by_cases hr : q.rbuf cid = 0
  · refine ⟨q.copies, s.user, ?_⟩
    simp only [hostStep, QueueStep.step, testPhase, hq, hp, hc, copyOut, if_pos hr, mark, hgetD,
      if_neg hstale, if_true]
  · refine ⟨q.copies ++ [⟨i, q.rbuf cid, cid, q.len cid⟩],
      blit s.user q.dma (q.rbuf cid) (c.buf4kPa cid) (q.len cid), ?_⟩
    simp only [hostStep, QueueStep.step, testPhase, hq, hp, hc, copyOut, if_neg hr, mark, hgetD,
      if_neg hstale, if_true]

/-- A completion goes through a queue from which everything was consumed. -/
theorem complete_run {c : QpConfig} {s : Port} {i cid : ℕ} (hpc : s.queue.pc = .idle)
    (hi : i < s.queue.issued) (hs : (s.queue.cmd i).stage = .submitted)
    (hcid : (readSqe s.queue.sqcq (s.queue.cmd i).cid).cid = cid) (h16 : cid < 2 ^ 16)
    (htaken : s.queue.taken = s.queue.posted.length)
    (hhead : s.queue.cqHead = s.queue.posted.length % c.qd)
    (hphase : s.queue.cqPhase = PhaseRing.tag c.qd s.queue.posted.length) (x : Cqe)
    (hstale : cqeP (completeSqcq c cid x s.queue) (nextHead c.qd s.queue.cqHead) ≠
      nextPhase c.qd s.queue.cqHead s.queue.cqPhase) :
    Meets (QueueStep.outcome c) (fun o s => o.Admissible s.queue) (completeSteps i x) s ∧
    ∃ dma copies disk user, run (QueueStep.outcome c) (completeSteps i x) s = .ok
      ⟨{ s.queue with
          dma := dma
          sqcq := completeSqcq c cid x s.queue
          doneFlag := Function.update s.queue.doneFlag cid 1
          cqHead := nextHead c.qd s.queue.cqHead
          cqPhase := nextPhase c.qd s.queue.cqHead s.queue.cqPhase
          pc := .idle
          cmd := setStage s.queue.cmd i .consumed
          posted := s.queue.posted ++ [i]
          taken := s.queue.taken + 1
          copies := copies }, disk, user⟩ := by
  obtain ⟨dma, hexec⟩ := exec_queue i s
  have hs1 : ((exec i s).queue.cmd i).stage = .executed (readSqe s.queue.sqcq (s.queue.cmd i).cid) := by
    rw [hexec]
    exact setStage_self ..
  have hpost : (QueueStep.post i x).step c (exec i s) =
      { exec i s with queue := post c i (readSqe s.queue.sqcq (s.queue.cmd i).cid) x (exec i s).queue } := by
    simp only [QueueStep.step, hs1]
  have hslot : cqSlot (completeSqcq c cid x s.queue) s.queue.cqHead = (cid, s.queue.cqPhase) := by
    rw [completeSqcq, cqSlot_writeCqe _ _ h16, hhead, hphase, Function.update_self]
  have hget : (s.queue.posted ++ [i])[s.queue.taken]? = some i := by simp [htaken]
  have hqueue : ((QueueStep.post i x).step c (exec i s)).queue =
      { s.queue with
        dma := dma
        sqcq := completeSqcq c cid x s.queue
        cmd := setStage s.queue.cmd i .posted
        posted := s.queue.posted ++ [i] } := by
    rw [hpost]
    simp only [post, hexec, hcid, setStage_setStage, completeSqcq]
  constructor
  · refine ⟨⟨hi, hs⟩, ?_⟩
    change Meets _ _ _ (exec i s)
    refine ⟨⟨by rw [hexec]; exact hi, _, hs1⟩, ?_⟩
    change Meets _ _ _ ((QueueStep.post i x).step c (exec i s))
    refine ⟨?_, trivial, trivial, trivial, trivial, trivial⟩
    change ((QueueStep.post i x).step c (exec i s)).queue.pc = .idle
    rw [hqueue]
    exact hpc
  · obtain ⟨copies, user, hrun⟩ := poll_run hget hslot hstale hqueue
    refine ⟨dma, copies, ((QueueStep.post i x).step c (exec i s)).disk, user, ?_⟩
    simp only [setStage_setStage] at hrun
    exact congrArg Outcome.ok hrun

/-! ### Runs of one queue as runs of the driver -/

/-- A step of the queue of `core` on the drive `did`. -/
def toDriver (did core : ℕ) : QueueStep → DriverStep
  | .request r =>
    if r.write then .nvmeWriteReq r.lba r.numBlk core r.len r.buf
    else .nvmeReadReq r.lba r.numBlk core r.len r.buf
  | .call => .nvmeCheck 0
  | .host => .host did core
  | .exec i => .exec did core i
  | .post i x => .post did core i x

/-- `toDriver` finds the queue: a request is for a sector of the drive, and the identifier 0 is
one of the first queue. -/
def Lifts (c : Config) (did core : ℕ) : QueueStep → Prop
  | .request r => reqDid c.nd r.lba = did
  | .call => did = 0 ∧ core = 0
  | _ => True

theorem toDriver_spec {c : Config} {did core : ℕ} {o : QueueStep} (h : Lifts c did core o) :
    (toDriver did core o).did c = did ∧ (toDriver did core o).core c = core ∧
      (toDriver did core o).on = o ∧ ∀ rid, toDriver did core o = .nvmeCheck rid → 0 ≤ rid := by
  cases o with
  | request r =>
    obtain ⟨write, lba, numBlk, len, buf⟩ := r
    cases write <;> simp [toDriver, DriverStep.did, DriverStep.core, DriverStep.on] <;> exact h
  | call =>
    obtain ⟨rfl, rfl⟩ := h
    simp [toDriver, DriverStep.did, DriverStep.core, DriverStep.on, ridDid, ridCore]
  | _ => simp [toDriver, DriverStep.did, DriverStep.core, DriverStep.on]

theorem lift_run {c : Config} {did core : ℕ} (hd : did < c.nd) (hk : core < c.nCore) {s' : Port}
    {os : List QueueStep} : ∀ {S : Driver}, (∀ o ∈ os, Lifts c did core o) →
      Meets (QueueStep.outcome (c.qp did core)) (fun o s => o.Admissible s.queue) os (S.port did core) →
      run (QueueStep.outcome (c.qp did core)) os (S.port did core) = .ok s' →
        Meets (DriverStep.step c) (DriverStep.Admissible c) (os.map (toDriver did core)) S ∧
          run (DriverStep.step c) (os.map (toDriver did core)) S = .ok (S.put did core s') := by
  induction os with
  | nil =>
    intro S _ _ h
    simp only [run_nil, Outcome.ok.injEq] at h
    subst h
    exact ⟨trivial, by rw [Driver.put_port]; rfl⟩
  | cons o os ih =>
    intro S hl hA h
    obtain ⟨hA, hAs⟩ := hA
    obtain ⟨hdid, hcore, hon, hrid⟩ := toDriver_spec (hl o List.mem_cons_self)
    have hnext : (toDriver did core o).next c S =
        S.put did core (o.step (c.qp did core) (S.port did core)) := by
      rw [DriverStep.next, hdid, hcore, hon]
    have hrest := ih (S := S.put did core (o.step (c.qp did core) (S.port did core)))
      (fun o ho => hl o (List.mem_cons_of_mem _ ho)) (by rw [Driver.port_put]; exact hAs)
      (by rw [Driver.port_put]; exact h)
    rw [Driver.put_put] at hrest
    rw [List.map_cons]
    refine ⟨⟨⟨by rw [hdid]; exact hd, by rw [hcore]; exact hk, ?_, hrid⟩, ?_⟩, ?_⟩
    · rw [hdid, hcore, hon]
      exact hA
    · rw [DriverStep.step, hnext]
      exact hrest.1
    · rw [run_cons, DriverStep.step, hnext]
      exact hrest.2

theorem lifts_issue {c : Config} {did : ℕ} {r : Request} (h : reqDid c.nd r.lba = did) (core : ℕ) :
    ∀ o ∈ issueSteps r, Lifts c did core o := by
  simp [issueSteps, Lifts, h]

theorem lifts_complete (c : Config) (i : ℕ) (x : Cqe) : ∀ o ∈ completeSteps i x, Lifts c 0 0 o := by
  simp [completeSteps, Lifts]

/-- A completion without any other field set. -/
def plainCqe : Cqe := ⟨0, 0, 0, 0, false, 0⟩

/-- The first command of a new queue, completed. -/
theorem first_run (c : QpConfig) (hqd : 1 < c.qd) (hle : c.qd ≤ 1024) {r : Request} (hr : r.Fits)
    (disk user : ℕ → Byte) :
    ∃ s', Meets (QueueStep.outcome c) (fun o s => o.Admissible s.queue)
        (issueSteps r ++ completeSteps 0 plainCqe) ⟨newQueue c.qd, disk, user⟩ ∧
      run (QueueStep.outcome c) (issueSteps r ++ completeSteps 0 plainCqe)
        ⟨newQueue c.qd, disk, user⟩ = .ok s' ∧ s'.queue.doneFlag 0 = 1 := by
  have hpc : (newQueue c.qd).pc = .idle := rfl
  have hissue := issue_run (c := c) (r := r) (s := ⟨newQueue c.qd, disk, user⟩) hpc
    (by simp [newQueue])
  have hmeets := issue_meets (c := c) hr (s := ⟨newQueue c.qd, disk, user⟩) hpc
  have hcid : (readSqe (initSqcq c.qd) 0).cid = 0 := initSqcq_cid (by omega) (by decide)
  have hstale : cqeP (completeSqcq c 0 plainCqe (issueQueue c r
      ⟨newQueue c.qd, disk, user⟩)) (nextHead c.qd 0) ≠ nextPhase c.qd 0 true := by
    have h1 : 0 + 1 ≠ c.qd := by omega
    have h0 : 1 ≠ 0 % c.qd := by simp
    have hp := cqSlot_writeSqe (initSqcq c.qd) (i := 0) (k := 1) r.opc (c.buf4kPa 0)
      (reqCdw10 c.nd r.lba) r.cdw12 (by decide)
    rw [nextHead, nextPhase, if_neg h1, if_neg h1]
    refine ne_of_eq_of_ne (b := false) ?_ (by decide)
    exact (cqeP_writeCqe_of_ne _ _ h0).trans ((congrArg Prod.snd hp).trans (initSqcq_p _ 1))
  obtain ⟨hmeets', dma, copies, disk', user', hrun⟩ := complete_run (c := c)
    (s := ⟨issueQueue c r ⟨newQueue c.qd, disk, user⟩, disk, user⟩) (i := 0) hpc Nat.one_pos rfl
    ((congrArg Sqe.cid (readSqe_writeSqe _ 0 _ _ _ (opc_lt _))).trans hcid) (by decide) rfl
    (Nat.zero_mod _).symm (PhaseRing.tag_zero _).symm plainCqe hstale
  exact ⟨_, hmeets.append hissue hmeets', (run_append hissue).trans hrun, rfl⟩

end Pthabt.Nvme
