import Pthabt.Nvme.QueueRuns

/-! `nvme_check` is sound: when it reports a request as done, the request's own completion
was consumed and its data copied, whatever became of its slot since. This rests on the
layout that the queues are configured for, and on identifiers that fit an `int`. -/

namespace Pthabt.Nvme

open Lib Bytes Run

/-- The drive has the command: its doorbell was rung, and it was not completed. -/
def Stage.InFlight : Stage → Prop
  | .submitted | .executed _ => True
  | _ => False

/-- The drive had the command and its completion was not consumed. -/
def Stage.Rung : Stage → Prop
  | .submitted | .executed _ | .posted => True
  | _ => False

/-- The request has returned its identifier. -/
def Stage.Returned : Stage → Prop
  | .claimed | .filled => False
  | _ => True

/-- The `CID` that the drive reads, or has read, for command `i`. -/
def wireCid (q : Queue) (i : ℕ) : ℕ :=
  match (q.cmd i).stage with
  | .executed e => e.cid
  | _ => (readSqe q.sqcq (q.cmd i).cid).cid

/-- The completion of command `i` was consumed once, and its data copied once to its buffer when
it is a read. -/
def Done (q : Queue) (i : ℕ) : Prop :=
  (q.posted.take q.taken).count i = 1 ∧ q.copies.filter (·.id = i) = (copyOf q.cmd i).toList

/-- What must hold of the driver at any time. -/
structure CheckSound (c : Config) (S : Driver) : Prop where
  cids : ∀ did < c.nd, ∀ core < c.nCore, ∀ i < (S.queue did core).issued,
    ∀ k < (S.queue did core).issued, ((S.queue did core).cmd i).stage.InFlight →
      ((S.queue did core).cmd k).stage.InFlight →
        wireCid (S.queue did core) i = wireCid (S.queue did core) k → i = k
  buffers : ∀ o : DriverStep, o.IsHost → o.Admissible c S → ∀ did < c.nd, ∀ core < c.nCore,
    ∀ i < (S.queue did core).issued, ((S.queue did core).cmd i).stage.Rung →
      Agree ((o.next c S).queue did core).dma ((c.qp did core).buf4kPa ((S.queue did core).cmd i).cid)
        (S.queue did core).dma ((c.qp did core).buf4kPa ((S.queue did core).cmd i).cid) blksz
  check : ∀ did < c.nd, ∀ core < c.nCore, ∀ i < (S.queue did core).issued,
    ((S.queue did core).cmd i).stage.Returned →
      nvmeDone c S (ridOf c did core ((S.queue did core).cmd i).cid) → Done (S.queue did core) i

/-! ### One queue -/

section Queue

variable {c : QpConfig} {q : Queue}

theorem Stage.InFlight.not_consumed {st : Stage} (h : st.InFlight) : st ≠ .consumed := by
  rintro rfl
  exact h

theorem Stage.Rung.not_consumed {st : Stage} (h : st.Rung) : st ≠ .consumed := by
  rintro rfl
  exact h

/-- The drive sees the identifier that `new_sqe` returned. -/
theorem QueueInv.wireCid_eq (h : QueueInv c q) {i : ℕ} (hi : i < q.issued)
    (hs : (q.cmd i).stage.InFlight) : wireCid q i = (q.cmd i).cid := by
  unfold wireCid
  cases hst : (q.cmd i).stage with
  | executed e => rw [h.wiring.fetched i hi e hst]; rfl
  | submitted => exact h.wiring.slotCid _ (h.slots.cid_lt i hi)
  | _ => rw [hst] at hs; exact hs.elim

theorem QueueInv.cids (h : QueueInv c q) {i k : ℕ} (hi : i < q.issued) (hk : k < q.issued)
    (hsi : (q.cmd i).stage.InFlight) (hsk : (q.cmd k).stage.InFlight)
    (he : wireCid q i = wireCid q k) : i = k := by
  rw [h.wireCid_eq hi hsi, h.wireCid_eq hk hsk] at he
  exact h.slots.distinct i hi k hk hsi.not_consumed hsk.not_consumed he

/-- The holder of the lock writes only the DMA buffer of the slot it has claimed. -/
theorem QueueInv.host_dma {s : Port} (h : QueueInv c s.queue) (hc : c.Valid) {i : ℕ}
    (hi : i < s.queue.issued) (hs : (s.queue.cmd i).stage.Rung) :
    Agree (hostStep c s).queue.dma (c.buf4kPa (s.queue.cmd i).cid) s.queue.dma
      (c.buf4kPa (s.queue.cmd i).cid) blksz := by
  unfold hostStep
  cases hpc : s.queue.pc with
  | fill r cid =>
    obtain ⟨hl, hlast⟩ := h.filling hpc
    have hne : (s.queue.cmd i).cid ≠ cid := by
      intro he
      have hcid : (s.queue.cmd (s.queue.issued - 1)).cid = cid := by rw [hlast]
      have hik := h.slots.distinct i hi _ hl hs.not_consumed (by rw [hlast]; simp)
        (he.trans hcid.symm)
      rw [hik, hlast] at hs
      exact hs
    have hcid := h.slots.cid_lt _ hl
    have hlen := (h.slots.fits _ hl).1
    rw [hlast] at hcid hlen
    simp only [Nvme.fill]
    cases r.write with
    | true => exact agree_blit _ _ ((buf4k_apart hc (h.slots.cid_lt i hi) hcid hne).mono le_rfl hlen)
    | false => exact agree_refl _ _ _
  | newSqe r =>
    simp only [Nvme.newSqe]
    split_ifs <;> exact agree_refl _ _ _
  | checkCq back =>
    simp only [Nvme.testPhase]
    split_ifs <;> exact agree_refl _ _ _
  | copy back cid =>
    simp only [Nvme.copyOut]
    split_ifs <;> exact agree_refl _ _ _
  | _ => exact agree_refl _ _ _

/-- Of the copies of distinct commands, one is that of command `i`. -/
theorem filter_copies (cmd : ℕ → Cmd) {i : ℕ} : ∀ {l : List ℕ}, l.Nodup → i ∈ l →
    (l.filterMap (copyOf cmd)).filter (·.id = i) = (copyOf cmd i).toList := by
  have hid : ∀ k x, copyOf cmd k = some x → x.id = k := by
    intro k x hx
    unfold copyOf at hx
    split_ifs at hx
    rw [← Option.some.inj hx]
  have hnone : ∀ l : List ℕ, i ∉ l → (l.filterMap (copyOf cmd)).filter (·.id = i) = [] := by
    intro l hl
    rw [List.filter_eq_nil_iff]
    intro x hx hxi
    obtain ⟨k, hk, hkx⟩ := List.mem_filterMap.mp hx
    rw [hid k x hkx, decide_eq_true_eq] at hxi
    exact hl (hxi ▸ hk)
  intro l hnd hm
  induction l with
  | nil => cases hm
  | cons k l ih =>
    obtain ⟨hk, hnd⟩ := List.nodup_cons.mp hnd
    by_cases he : k = i
    · subst he
      cases hc : copyOf cmd k with
      | none => simp [hc, hnone l hk]
      | some x => simp [hc, hid k x hc, hnone l hk]
    · have hm' : i ∈ l := by
        rcases List.mem_cons.mp hm with rfl | hm
        · exact absurd rfl he
        · exact hm
      cases hc : copyOf cmd k with
      | none => simpa [hc] using ih hnd hm'
      | some x => simpa [hc, hid k x hc, he] using ih hnd hm'

/-- A slot whose `done_flag` is 1 belongs to no command that is still to be consumed. -/
theorem QueueInv.done (h : QueueInv c q) {i : ℕ} (hi : i < q.issued)
    (hd : q.doneFlag (q.cmd i).cid = 1) : Done q i := by
  have hs : (q.cmd i).stage = .consumed := by
    by_contra hs
    rw [h.slots.busy i hi hs] at hd
    cases hd
  have hm := (h.ring.isConsumed i hi).mp hs
  refine ⟨List.count_eq_one_of_mem (h.ring.nodup.sublist (List.take_sublist _ _)) hm, ?_⟩
  rw [h.copies]
  refine filter_copies q.cmd (h.ring.nodup.sublist (List.take_sublist _ _)) ?_
  refine List.take_subset_take_left _ ?_ hm
  cases q.pc <;> simp [copied]

end Queue

/-! ### The driver -/

theorem DriverInv.buffers {c : Config} (hc : c.Valid) {S : Driver} (h : DriverInv c S)
    {o : DriverStep} (ho : o.IsHost) {did core : ℕ} (hd : did < c.nd) (hk : core < c.nCore) {i : ℕ}
    (hi : i < (S.queue did core).issued) (hs : ((S.queue did core).cmd i).stage.Rung) :
    Agree ((o.next c S).queue did core).dma ((c.qp did core).buf4kPa ((S.queue did core).cmd i).cid)
      (S.queue did core).dma ((c.qp did core).buf4kPa ((S.queue did core).cmd i).cid) blksz := by
  unfold DriverStep.next
  by_cases hq : did = o.did c ∧ core = o.core c
  · obtain ⟨rfl, rfl⟩ := hq
    rw [Driver.put_queue_self]
    have hqi := h _ hd _ hk
    cases o with
    | exec _ _ _ => exact ho.elim
    | post _ _ _ _ => exact ho.elim
    | host d k => exact hqi.host_dma (s := S.port d k) (hc.qp _ hd _ hk) hi hs
    | _ => exact agree_refl _ _ _
  · rw [Driver.put_queue_of_ne _ _ hq]
    exact agree_refl _ _ _

theorem DriverInv.checkSound {c : Config} (hc : c.Valid) (hfit : c.nd * c.nCore * c.qd ≤ 2 ^ 31)
    {S : Driver} (h : DriverInv c S) : CheckSound c S where
  cids did hd core hk i hi k hk' hsi hsk he := (h did hd core hk).cids hi hk' hsi hsk he
  buffers o ho _ did hd core hk i hi hs := h.buffers hc ho hd hk hi hs
  check did hd core hk i hi _ hdone := by
    obtain ⟨hdid, hcore, hcid⟩ := rid_decode hfit hd hk ((h did hd core hk).slots.cid_lt i hi)
    obtain ⟨-, hdone⟩ := hdone
    rw [hdid, hcore, hcid] at hdone
    exact (h did hd core hk).done hi hdone

/-- In every run of the driver, whatever its ULTs call and however the drives answer. -/
theorem nvme_check_sound (c : Config) (hc : c.Valid) (hfit : c.nd * c.nCore * c.qd ≤ 2 ^ 31)
    (disk : ℕ → ℕ → Byte) (user : ℕ → Byte) (steps : List DriverStep)
    (hA : Meets (DriverStep.step c) (DriverStep.Admissible c) steps (nvmeInit c disk user)) :
    Always (DriverStep.step c) (CheckSound c) steps (nvmeInit c disk user) :=
  always_of_meets (fun _ h => DriverInv.checkSound hc hfit h)
    (fun o S h hA => show (DriverStep.step c o S).Safe (DriverInv c) from DriverInv.next hc h hA)
    (inv_nvmeInit hc disk user) hA

/-- Two drives and one core, with the configured queue length. -/
def twoDrives : Config := ⟨2, 1, 1024, fun _ _ p => p * 2097152⟩

theorem pages_1024 : 1024 * blksz % (2 * 1024 * 1024) = 0 := by decide

theorem twoDrives_valid : twoDrives.Valid := by
  refine ⟨by simp [twoDrives], by simp [twoDrives], fun did _ core _ => ⟨⟨?_, pages_1024, ?_⟩, ?_⟩⟩
  · simp [twoDrives, Config.qp]
  · intro p _ k _ hne
    change p * 2097152 + 2 * 1024 * 1024 ≤ k * 2097152 ∨ k * 2097152 + 2 * 1024 * 1024 ≤ p * 2097152
    omega
  · simp [twoDrives, Config.qp]

/-- A read of two sectors, from its request to the `check_cq` that consumes it. -/
theorem nvme_check_sound_read :
    (∃ S, run (DriverStep.step twoDrives) ((issueSteps ⟨false, 0, 2, 1000, 8192⟩ ++
        completeSteps 0 plainCqe).map (toDriver 0 0)) (nvmeInit twoDrives (fun _ _ => 7) fun _ => 0) =
          .ok S ∧ (S.queue 0 0).doneFlag 0 = 1) ∧
      Always (DriverStep.step twoDrives) (CheckSound twoDrives)
        ((issueSteps ⟨false, 0, 2, 1000, 8192⟩ ++ completeSteps 0 plainCqe).map (toDriver 0 0))
        (nvmeInit twoDrives (fun _ _ => 7) fun _ => 0) := by
  obtain ⟨s, hm, hr, hdone⟩ := first_run (twoDrives.qp 0 0) (by decide) (by decide)
    (r := ⟨false, 0, 2, 1000, 8192⟩) ⟨by simp [blksz], fun _ => by simp⟩ (fun _ => 7) fun _ => 0
  obtain ⟨hm, hr⟩ := lift_run (c := twoDrives) (S := nvmeInit twoDrives (fun _ _ => 7) fun _ => 0)
    (by decide) (by decide)
    (List.forall_mem_append.mpr ⟨lifts_issue (by simp [reqDid]) 0, lifts_complete _ 0 _⟩) hm hr
  refine ⟨⟨_, hr, ?_⟩, nvme_check_sound twoDrives twoDrives_valid (by decide) _ _ _ hm⟩
  rw [Driver.put_queue_self]
  exact hdone

/-! ### Too many slots for an `int` -/

/-- A request of one sector. -/
def oneSector (lba : ℕ) : Request := ⟨true, lba, 1, 512, 0⟩

theorem oneSector_fits (lba : ℕ) : (oneSector lba).Fits := ⟨by simp [oneSector, blksz], fun h => by cases h⟩

/-- `QD` is 512, and the slots of the last drive have identifiers from `2 ^ 32` on. -/
def manyDrives : Config := ⟨2 ^ 23 + 1, 1, 512, fun _ _ p => p * 2097152⟩

theorem n2mbPage_512 : n2mbPage 512 = 1 := by decide

theorem pages_512 : 512 * blksz % (2 * 1024 * 1024) = 0 := by decide

theorem manyDrives_valid : manyDrives.Valid := by
  refine ⟨by simp [manyDrives], by simp [manyDrives], fun did _ core _ => ⟨⟨?_, ?_, ?_⟩, ?_⟩⟩
  · simp [manyDrives, Config.qp]
  · exact pages_512
  · intro p hp k hk hne
    change p < n2mbPage 512 at hp
    change k < n2mbPage 512 at hk
    rw [n2mbPage_512] at hp hk
    exact absurd ((Nat.lt_one_iff.mp hp).trans (Nat.lt_one_iff.mp hk).symm) hne
  · simp [manyDrives, Config.qp]

/-- Where the first identifier of a later drive is again 0, a new command of it looks done once
the first command of the first drive is. -/
theorem overflow_fails {c : Config} (hqd : 1 < c.qd) (hle : c.qd ≤ 1024) (hcore : 0 < c.nCore)
    {did lba : ℕ} (hd : did < c.nd) (hne : did ≠ 0) (hlba : reqDid c.nd lba = did)
    (hrid : ridOf c did 0 0 = 0) (disk : ℕ → ℕ → Byte) (user : ℕ → Byte) :
    ∃ steps, Meets (DriverStep.step c) (DriverStep.Admissible c) steps (nvmeInit c disk user) ∧
      ¬ Always (DriverStep.step c) (CheckSound c) steps (nvmeInit c disk user) := by
  have hdid0 : reqDid c.nd 0 = 0 := by simp [reqDid]
  obtain ⟨s, hm, hr, hdone⟩ := first_run (c.qp 0 0) hqd hle (oneSector_fits 0) (disk 0) user
  obtain ⟨hm, hr⟩ := lift_run (S := nvmeInit c disk user) (by omega) hcore
    (List.forall_mem_append.mpr ⟨lifts_issue hdid0 0, lifts_complete c 0 _⟩) hm hr
  set S := (nvmeInit c disk user).put 0 0 s with hS
  have hq : (S.port did 0).queue = newQueue c.qd := by
    rw [hS]
    exact Driver.put_queue_of_ne _ _ (fun h => hne h.1)
  have hpc : (S.port did 0).queue.pc = .idle := by rw [hq]; rfl
  obtain ⟨hm', hr'⟩ := lift_run (S := S) hd hcore
    (lifts_issue (r := oneSector lba) hlba 0) (issue_meets (oneSector_fits _) hpc)
    (issue_run hpc (by rw [hq]; simp [newQueue]))
  refine ⟨_, hm.append hr hm', fun h => ?_⟩
  have hsound := h.at_end ((run_append hr).trans hr')
  set T := S.put did 0 ⟨issueQueue (c.qp did 0) (oneSector lba) (S.port did 0), (S.port did 0).disk,
    (S.port did 0).user⟩ with hT
  have hqueue : T.queue did 0 = issueQueue (c.qp did 0) (oneSector lba) (S.port did 0) := by
    rw [hT, Driver.put_queue_self]
  have hfirst : T.queue 0 0 = s.queue := by
    rw [hT, Driver.put_queue_of_ne _ _ (fun h => hne h.1.symm), hS, Driver.put_queue_self]
  have hcid : ((T.queue did 0).cmd 0).cid = 0 := by
    rw [hqueue, issueQueue, hq]
    rfl
  have hcheck := hsound.check did hd 0 hcore 0 (by rw [hqueue]; exact Nat.succ_pos _)
    (by rw [hqueue, issueQueue, hq]; trivial) ⟨by rw [hcid, hrid], ?_⟩
  · obtain ⟨hcount, -⟩ := hcheck
    rw [hqueue, issueQueue, hq] at hcount
    cases hcount
  · rw [hcid, hrid]
    simp only [ridDid, ridCore, ridCid, Int.zero_tdiv, Int.zero_tmod, Int.toNat_zero]
    rw [hfirst]
    exact hdone

theorem manyDrives_fails (disk : ℕ → ℕ → Byte) (user : ℕ → Byte) :
    ∃ steps, Meets (DriverStep.step manyDrives) (DriverStep.Admissible manyDrives) steps
        (nvmeInit manyDrives disk user) ∧
      ¬ Always (DriverStep.step manyDrives) (CheckSound manyDrives) steps
        (nvmeInit manyDrives disk user) :=
  have hd : 2 ^ 23 < manyDrives.nd := by decide
  have hlba : reqDid manyDrives.nd (2 ^ 26) = 2 ^ 23 := by decide
  overflow_fails (c := manyDrives) (by decide) (by decide) (by decide) hd (by decide) hlba (by decide)
    disk user

/-! ### Too long a completion queue -/

/-- `QD` is 1536: the completion entries from 1024 on are the submission entries from 0 on. -/
def longQueues : Config := ⟨1, 1, 1536, fun _ _ p => p * 2097152⟩

def longQueue : QpConfig := longQueues.qp 0 0

/-- `t` requests were made, each completed before the next but the first two, which the drive has
not looked at; `m` completions were consumed. -/
structure Rounds (t m : ℕ) (q : Queue) : Prop where
  pc : q.pc = .idle
  sqTail : q.sqTail = t
  issued : q.issued = t
  cqHead : q.cqHead = m
  cqPhase : q.cqPhase = true
  taken : q.taken = m
  posted : q.posted.length = m
  free : ∀ k, t ≤ k → q.doneFlag k ≠ 0
  held : ∀ i < 2, i < t → (q.cmd i).stage = .submitted ∧ (q.cmd i).cid = i
  stale : ∀ k, m ≤ k → cqeP q.sqcq k = false
  slotCid : ∀ k, 2 ≤ k → k < 1536 → (readSqe q.sqcq k).cid = k
  zero : (readSqe q.sqcq 0).cid = 0
  one : m = 1029 → (readSqe q.sqcq 1).cid = 0

theorem rounds_new : Rounds 0 0 (newQueue longQueue.qd) where
  pc := rfl
  sqTail := rfl
  issued := rfl
  cqHead := rfl
  cqPhase := rfl
  taken := rfl
  posted := rfl
  free := fun _ _ => by simp [newQueue]
  held := fun i _ hi => absurd hi (Nat.not_lt_zero i)
  stale := fun k _ => initSqcq_p _ k
  slotCid := fun k _ hk => initSqcq_cid hk (by omega)
  zero := initSqcq_cid (by decide) (by decide)
  one := fun h => by cases h

theorem longQueue_pa {t : ℕ} (ht : t < 1536) : longQueue.buf4kPa t < 2 ^ 32 := by
  have h3 : n2mbPage 1536 = 3 := by decide
  change t % n2mbPage 1536 * 2097152 + 4096 * (t / n2mbPage 1536) < 2 ^ 32
  rw [h3]
  omega

theorem Rounds.issue {t m : ℕ} {s : Port} (h : Rounds t m s.queue) (ht : t < 1535) (lba : ℕ) :
    Rounds (t + 1) m (issueQueue longQueue (oneSector lba) s) := by
  have hother : ∀ k, (readSqe (issueQueue longQueue (oneSector lba) s).sqcq k).cid =
      (readSqe s.queue.sqcq k).cid := by
    intro k
    by_cases hk : k = s.queue.sqTail
    · subst hk
      exact (congrArg Sqe.cid (readSqe_writeSqe _ _ _ _ _ (opc_lt _))).trans rfl
    · exact congrArg Sqe.cid (readSqe_writeSqe_of_ne _ _ _ _ _ hk)
  have hpa : longQueue.buf4kPa s.queue.sqTail < 2 ^ 32 := longQueue_pa (by rw [h.sqTail]; omega)
  refine ⟨h.pc, ?_, congrArg (· + 1) h.issued, h.cqHead, h.cqPhase, h.taken, h.posted, ?_, ?_,
    fun k hk => cqeP_writeSqe _ _ _ _ _ _ hpa (h.stale k hk), fun k h2 hk => ?_, ?_, fun hm => ?_⟩
  · change (s.queue.sqTail + 1) % 1536 = t + 1
    rw [h.sqTail, Nat.mod_eq_of_lt (by omega)]
  · intro k hk
    change Function.update s.queue.doneFlag s.queue.sqTail 0 k ≠ 0
    rw [Function.update_of_ne (by rw [h.sqTail]; omega)]
    exact h.free k (by omega)
  · intro i hi hit
    change (Function.update s.queue.cmd s.queue.issued _ i).stage = .submitted ∧
      (Function.update s.queue.cmd s.queue.issued _ i).cid = i
    by_cases he : i = s.queue.issued
    · subst he
      rw [Function.update_self]
      exact ⟨rfl, by rw [h.sqTail, h.issued]⟩
    · rw [Function.update_of_ne he]
      rw [h.issued] at he
      exact h.held i hi (by omega)
  · rw [hother, h.slotCid k h2 hk]
  · rw [hother, h.zero]
  · rw [hother, h.one hm]

theorem cid_writeCqe {sqcq : ℕ → ℕ} {x : Cqe} (hx : x.dw0 = 0) (m : ℕ) {k : ℕ}
    (hk : (readSqe sqcq k).cid = 0) : (readSqe (writeCqe sqcq m x) k).cid = 0 := by
  by_cases hw : (sqOffset + 16 * k) / 4 = m
  · have h4 : sqOffset + 16 * k = 4 * m := by rw [sqOffset_eq] at hw ⊢; omega
    simp [readSqe, h4, writeCqe, hx]
  · simpa only [readSqe, writeCqe_of_ne _ _ hw] using hk

/-- The entry at 1028 begins where the second submission entry does. -/
theorem cid_writeCqe_one (sqcq : ℕ → ℕ) {x : Cqe} (hx : x.dw0 = 0) :
    (readSqe (writeCqe sqcq 1028 x) 1).cid = 0 := by
  have h4 : sqOffset + 16 * 1 = 4 * 1028 := by rw [sqOffset_eq]
  simp [readSqe, h4, writeCqe, hx]

/-- One more request, executed, completed and consumed. -/
theorem Rounds.round {m : ℕ} {s : Port} (h : Rounds (m + 2) m s.queue) (hm : m ≤ 1028) :
    ∃ s', Meets (QueueStep.outcome longQueue) (fun o s => o.Admissible s.queue)
        (issueSteps (oneSector 0) ++ completeSteps (m + 2) plainCqe) s ∧
      run (QueueStep.outcome longQueue) (issueSteps (oneSector 0) ++ completeSteps (m + 2) plainCqe) s =
        .ok s' ∧ Rounds (m + 3) (m + 1) s'.queue := by
  have hissue := issue_run (c := longQueue) (r := oneSector 0) h.pc (h.free _ (by rw [h.sqTail]))
  have hi := h.issue (by omega) 0
  have hqd : longQueue.qd = 1536 := rfl
  set q := issueQueue longQueue (oneSector 0) s with hq
  have hcmd : q.cmd (m + 2) = ⟨oneSector 0, m + 2, .submitted⟩ := by
    simp only [hq, issueQueue, h.issued, h.sqTail, Function.update_self]
  have hslot : q.posted.length % longQueue.qd = m := by
    rw [hi.posted]
    exact Nat.mod_eq_of_lt (by omega)
  have hne : m + 1 ≠ longQueue.qd := by omega
  have htag : PhaseRing.tag longQueue.qd m = true := PhaseRing.tag_of_lt (by omega)
  have hmem : ∃ x : Cqe, x.dw0 = 0 ∧
      completeSqcq longQueue (m + 2) plainCqe q = writeCqe q.sqcq m x := by
    rw [completeSqcq, hslot]
    exact ⟨_, rfl, rfl⟩
  obtain ⟨x, hx, hmem⟩ := hmem
  have hhead : nextHead longQueue.qd q.cqHead = m + 1 := by
    rw [nextHead, hi.cqHead, if_neg hne]
  have hphase : nextPhase longQueue.qd q.cqHead q.cqPhase = true := by
    rw [nextPhase, hi.cqHead, if_neg hne, hi.cqPhase]
  have hstale : ∀ k, m + 1 ≤ k → cqeP (writeCqe q.sqcq m x) k = false := fun k hk => by
    rw [cqeP_writeCqe_of_ne _ _ (by omega)]
    exact hi.stale k (by omega)
  have hcid : (readSqe q.sqcq (q.cmd (m + 2)).cid).cid = m + 2 := by
    rw [hcmd]
    exact hi.slotCid (m + 2) (by omega) (by omega)
  obtain ⟨hmeets, dma, copies, disk, user, hrun⟩ := complete_run (c := longQueue)
    (s := { s with queue := q }) (i := m + 2) hi.pc (by rw [hi.issued]; omega) (by rw [hcmd]) hcid
    (by omega)
    (by rw [hi.taken, hi.posted]) (by rw [hslot, hi.cqHead])
    (by rw [hi.cqPhase, hi.posted, htag]) plainCqe
    (by rw [hhead, hphase, hmem, hstale _ le_rfl]; decide)
  refine ⟨_, (issue_meets (oneSector_fits 0) h.pc).append hissue hmeets,
    (run_append hissue).trans hrun, ?_⟩
  refine ⟨rfl, hi.sqTail, hi.issued, hhead, hphase, congrArg (· + 1) hi.taken, ?_, ?_, ?_, ?_, ?_, ?_, ?_⟩
  · simp [hi.posted]
  · intro k hk
    change Function.update q.doneFlag (m + 2) 1 k ≠ 0
    rw [Function.update_of_ne (by omega)]
    exact hi.free k hk
  · intro i h2 hit
    change (setStage q.cmd (m + 2) .consumed i).stage = .submitted ∧
      (setStage q.cmd (m + 2) .consumed i).cid = i
    rw [setStage_of_ne _ _ (by omega)]
    exact hi.held i h2 hit
  · intro k hk
    change cqeP (completeSqcq longQueue (m + 2) plainCqe q) k = false
    rw [hmem]
    exact hstale k hk
  · intro k h2 hk
    change (readSqe (completeSqcq longQueue (m + 2) plainCqe q) k).cid = k
    rw [hmem, readSqe_writeCqe _ _ (by omega)]
    exact hi.slotCid k h2 hk
  · change (readSqe (completeSqcq longQueue (m + 2) plainCqe q) 0).cid = 0
    rw [hmem]
    exact cid_writeCqe hx m hi.zero
  · intro hm
    change (readSqe (completeSqcq longQueue (m + 2) plainCqe q) 1).cid = 0
    obtain rfl : m = 1028 := Nat.succ.inj hm
    rw [hmem]
    exact cid_writeCqe_one _ hx

/-- After 1031 requests the drive finds `CID` 0 in the entries of the first two. -/
theorem rounds_run (disk user : ℕ → Byte) : ∀ m ≤ 1029, ∃ os s,
    (∀ o ∈ os, Lifts longQueues 0 0 o) ∧
    Meets (QueueStep.outcome longQueue) (fun o s => o.Admissible s.queue) os
      ⟨newQueue longQueue.qd, disk, user⟩ ∧
    run (QueueStep.outcome longQueue) os ⟨newQueue longQueue.qd, disk, user⟩ = .ok s ∧
      Rounds (m + 2) m s.queue := by
  have hdid : reqDid longQueues.nd (oneSector 0).lba = 0 := by simp [oneSector, reqDid]
  have hlift := lifts_issue hdid 0
  intro m hm
  induction m with
  | zero =>
    have h0 := rounds_new
    have h1 := h0.issue (s := ⟨newQueue longQueue.qd, disk, user⟩) (by decide) 0
    have h2 := h1.issue
      (s := ⟨issueQueue longQueue (oneSector 0) ⟨newQueue longQueue.qd, disk, user⟩, disk, user⟩)
      (by decide) 0
    have hr1 := issue_run (c := longQueue) (r := oneSector 0)
      (s := ⟨newQueue longQueue.qd, disk, user⟩) h0.pc (h0.free _ (Nat.zero_le _))
    have hr2 := issue_run (c := longQueue) (r := oneSector 0)
      (s := ⟨issueQueue longQueue (oneSector 0) ⟨newQueue longQueue.qd, disk, user⟩, disk, user⟩) h1.pc
      (h1.free _ (by rw [h1.sqTail]))
    refine ⟨issueSteps (oneSector 0) ++ issueSteps (oneSector 0), _,
      List.forall_mem_append.mpr ⟨hlift, hlift⟩,
      (issue_meets (oneSector_fits 0) h0.pc).append hr1 (issue_meets (oneSector_fits 0) h1.pc),
      (run_append hr1).trans hr2, h2⟩
  | succ m ih =>
    obtain ⟨os, s, hl, hmeets, hrun, hs⟩ := ih (by omega)
    obtain ⟨s', hmeets', hrun', hs'⟩ := hs.round (by omega)
    exact ⟨os ++ (issueSteps (oneSector 0) ++ completeSteps (m + 2) plainCqe), s',
      List.forall_mem_append.mpr ⟨hl, List.forall_mem_append.mpr ⟨hlift, lifts_complete _ _ _⟩⟩,
      hmeets.append hrun hmeets', (run_append hrun).trans hrun', hs'⟩

theorem pages_1536 : 1536 * blksz % (2 * 1024 * 1024) = 0 := by decide

theorem longQueues_paged : longQueues.Paged := by
  refine ⟨by simp [longQueues], by simp [longQueues], fun did _ core _ => ⟨?_, pages_1536, ?_⟩⟩
  · simp [longQueues, Config.qp]
  · intro p _ k _ hne
    change p * 2097152 + 2 * 1024 * 1024 ≤ k * 2097152 ∨ k * 2097152 + 2 * 1024 * 1024 ≤ p * 2097152
    omega

/-- The drive is given one identifier for two commands in flight. -/
theorem longQueues_fails (disk : ℕ → ℕ → Byte) (user : ℕ → Byte) :
    ∃ steps, Meets (DriverStep.step longQueues) (DriverStep.Admissible longQueues) steps
        (nvmeInit longQueues disk user) ∧
      ¬ Always (DriverStep.step longQueues) (CheckSound longQueues) steps
        (nvmeInit longQueues disk user) := by
  obtain ⟨os, s, hl, hm, hr, hs⟩ := rounds_run (disk 0) user 1029 le_rfl
  obtain ⟨hm, hr⟩ := lift_run (S := nvmeInit longQueues disk user) Nat.one_pos Nat.one_pos hl hm hr
  refine ⟨_, hm, fun h => ?_⟩
  have hcids := (h.at_end hr).cids 0 Nat.one_pos 0 Nat.one_pos 0
  rw [Driver.put_queue_self] at hcids
  obtain ⟨h0, hc0⟩ := hs.held 0 (by decide) (by decide)
  obtain ⟨h1, hc1⟩ := hs.held 1 (by decide) (by decide)
  have hw0 : wireCid s.queue 0 = 0 := by
    simp only [wireCid, h0, hc0, hs.zero]
  have hw1 : wireCid s.queue 1 = 0 := by
    simp only [wireCid, h1, hc1, hs.one]
  have := hcids (by rw [hs.issued]; decide) 1 (by rw [hs.issued]; decide) (by rw [h0]; trivial)
    (by rw [h1]; trivial) (hw0.trans hw1.symm)
  cases this

/-- Neither for every whole number of pages nor for every number of drives is `nvme_check` sound. -/
theorem nvme_check_unsound :
    (longQueues.Paged ∧ longQueues.nd * longQueues.nCore * longQueues.qd ≤ 2 ^ 31 ∧
      ∃ steps, Meets (DriverStep.step longQueues) (DriverStep.Admissible longQueues) steps
          (nvmeInit longQueues (fun _ _ => 0) fun _ => 0) ∧
        ¬ Always (DriverStep.step longQueues) (CheckSound longQueues) steps
          (nvmeInit longQueues (fun _ _ => 0) fun _ => 0)) ∧
    (manyDrives.Valid ∧
      ∃ steps, Meets (DriverStep.step manyDrives) (DriverStep.Admissible manyDrives) steps
          (nvmeInit manyDrives (fun _ _ => 0) fun _ => 0) ∧
        ¬ Always (DriverStep.step manyDrives) (CheckSound manyDrives) steps
          (nvmeInit manyDrives (fun _ _ => 0) fun _ => 0)) :=
  ⟨⟨longQueues_paged, by decide, longQueues_fails _ _⟩, manyDrives_valid, manyDrives_fails _ _⟩

end Pthabt.Nvme
