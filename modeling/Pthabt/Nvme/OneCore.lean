import Pthabt.Nvme.CheckSound
import Pthabt.Nvme.WritePhase

/-! The drives while the ULTs of one core request reads, or writes, one after the other. The
queues of the other cores stand still, though they may hold completions that nobody has
looked at. -/

namespace Pthabt.Nvme

open Lib Bytes

def Config.Addressed (c : Config) : Prop :=
  ∀ did < c.nd, ∀ core < c.nCore, (c.qp did core).Addressed

/-- Nobody holds the lock, and the drive has nothing to do. -/
structure Settled (q : Queue) : Prop where
  idle : q.pc = .idle
  done : ∀ i < q.issued, (q.cmd i).stage = .consumed ∨
    ((q.cmd i).stage = .posted ∧ (q.cmd i).req.write = true)

/-- The queues of the other cores. -/
def Rest (c : Config) (core : ℕ) (S : Driver) : Prop :=
  ∀ did < c.nd, ∀ k < c.nCore, k ≠ core → Settled (S.queue did k)

/-- The queues of `core` while reads are requested. -/
structure Reading (c : Config) (core : ℕ) (X : ℕ → Byte) (base : ℕ → ℕ) (S : Driver) : Prop where
  phase : ∀ did < c.nd, ReadPhase (c.qp did core) X (base did) (S.port did core)
  rest : Rest c core S

/-- The queues of `core` while writes of the bytes `A` are requested. -/
structure Writing (c : Config) (core : ℕ) (A : ℕ → ℕ → Prop) (Y : ℕ → ℕ → Byte) (base : ℕ → ℕ)
    (S : Driver) : Prop where
  phase : ∀ did < c.nd, WritePhase (c.qp did core) (A did) (Y did) (base did) (S.port did core)
  rest : Rest c core S

/-- The request that the holder of the lock works for. -/
def HostPc.serves : HostPc → Option Request
  | .newSqe r | .fill r _ | .doorbell r _ => some r
  | .checkCq back | .copy back _ | .mark back _ => back
  | .idle => none

/-- The holder of the lock rings the doorbell and leaves. -/
def Rings (q q' : Queue) : Prop := q'.pc = .idle ∧ ∃ r cid, q.pc = .doorbell r cid

/-- What a step leaves of the commands of a queue. -/
structure Keeps (q q' : Queue) : Prop where
  issued : q.issued ≤ q'.issued
  req : ∀ i < q.issued, (q'.cmd i).req = (q.cmd i).req
  cid : ∀ i < q.issued, (q'.cmd i).cid = (q.cmd i).cid
  consumed : ∀ i < q.issued, (q.cmd i).stage = .consumed → (q'.cmd i).stage = .consumed
  returned : ∀ i < q'.issued, (q'.cmd i).stage.Returned →
    (i < q.issued ∧ (q.cmd i).stage.Returned) ∨ (Rings q q' ∧ i + 1 = q.issued)

section Queue

variable {c : QpConfig} {s : Port} {q : Queue}

theorem Keeps.refl (q : Queue) : Keeps q q :=
  ⟨le_rfl, fun _ _ => rfl, fun _ _ => rfl, fun _ _ h => h, fun _ hi h => .inl ⟨hi, h⟩⟩

/-- The commands are the same. -/
theorem Keeps.of_eq {q' : Queue} (hi : q'.issued = q.issued) (hc : q'.cmd = q.cmd) : Keeps q q' := by
  refine ⟨hi.ge, ?_, ?_, ?_, ?_⟩
  · exact fun i _ => by rw [hc]
  · exact fun i _ => by rw [hc]
  · exact fun i _ h => by rwa [hc]
  · intro i hlt h
    rw [hc] at h
    exact .inl ⟨hi ▸ hlt, h⟩

/-- One command changes its stage. -/
theorem Keeps.setStage {q' : Queue} {i : ℕ} {st : Stage} (hi : q'.issued = q.issued)
    (hc : q'.cmd = setStage q.cmd i st) (hs : (q.cmd i).stage = .consumed → st = .consumed)
    (hr : st.Returned → (q.cmd i).stage.Returned ∨ Rings q q' ∧ i + 1 = q.issued) :
    Keeps q q' := by
  refine ⟨hi.ge, ?_, ?_, ?_, ?_⟩
  · exact fun k _ => by rw [hc, setStage_req]
  · exact fun k _ => by rw [hc, setStage_cid]
  · intro k _ h
    rw [hc]
    by_cases he : k = i
    · subst he
      rw [setStage_self]
      exact hs h
    · rwa [setStage_of_ne _ _ he]
  · intro k hlt h
    rw [hi] at hlt
    rw [hc] at h
    by_cases he : k = i
    · subst he
      rw [setStage_self] at h
      exact (hr h).imp_left fun h => ⟨hlt, h⟩
    · rw [setStage_of_ne _ _ he] at h
      exact .inl ⟨hlt, h⟩

theorem keeps_newSqe (c : QpConfig) (r : Request) (q : Queue) : Keeps q (newSqe c r q) := by
  unfold Nvme.newSqe
  split_ifs
  · exact .of_eq rfl rfl
  · have hne : ∀ i < q.issued, Function.update q.cmd q.issued ⟨r, q.sqTail, .claimed⟩ i = q.cmd i :=
      fun i hi => Function.update_of_ne hi.ne _ _
    refine ⟨Nat.le_succ _, ?_, ?_, ?_, ?_⟩
    · exact fun i hi => congrArg Cmd.req (hne i hi)
    · exact fun i hi => congrArg Cmd.cid (hne i hi)
    · exact fun i hi h => (congrArg Cmd.stage (hne i hi)).trans h
    · intro i hi h
      by_cases he : i = q.issued
      · subst he
        have hself : Function.update q.cmd q.issued ⟨r, q.sqTail, .claimed⟩ q.issued =
            ⟨r, q.sqTail, .claimed⟩ := Function.update_self ..
        have h : (Function.update q.cmd q.issued ⟨r, q.sqTail, .claimed⟩ q.issued).stage.Returned := h
        rw [hself] at h
        exact h.elim
      · have hlt : i < q.issued := by
          change i < q.issued + 1 at hi
          omega
        have h : (Function.update q.cmd q.issued ⟨r, q.sqTail, .claimed⟩ i).stage.Returned := h
        rw [hne i hlt] at h
        exact .inl ⟨hlt, h⟩

theorem QueueInv.keeps_host (h : QueueInv c s.queue) : Keeps s.queue (hostStep c s).queue := by
  unfold hostStep
  cases hpc : s.queue.pc with
  | idle => exact .refl _
  | newSqe r => exact keeps_newSqe c r s.queue
  | fill r cid =>
    obtain ⟨-, hlast⟩ := h.filling hpc
    refine .setStage rfl rfl ?_ False.elim
    rw [hlast]
    intro hs
    cases hs
  | doorbell r cid =>
    obtain ⟨hi, hlast⟩ := h.ringing hpc
    refine .setStage rfl rfl ?_ fun _ => .inr ⟨⟨rfl, r, cid, hpc⟩, by omega⟩
    rw [hlast]
    intro hs
    cases hs
  | checkCq back =>
    dsimp only
    unfold Nvme.testPhase
    split_ifs <;> exact .of_eq rfl rfl
  | copy back cid =>
    dsimp only
    unfold Nvme.copyOut
    dsimp only
    split_ifs <;> exact .of_eq rfl rfl
  | mark back cid =>
    obtain ⟨i, -, hgetD, -, -, hposted⟩ := h.marking hpc
    refine .setStage rfl rfl (fun _ => rfl) fun _ => .inl ?_
    rw [hgetD, hposted]
    trivial

theorem exec_issued (i : ℕ) (s : Port) : (exec i s).queue.issued = s.queue.issued := by
  unfold Nvme.exec transfer
  dsimp only
  split_ifs <;> rfl

theorem exec_cmd (i : ℕ) (s : Port) : (exec i s).queue.cmd =
    setStage s.queue.cmd i (.executed (readSqe s.queue.sqcq (s.queue.cmd i).cid)) := by
  unfold Nvme.exec transfer
  dsimp only
  split_ifs <;> rfl

/-- Any step of a queue. -/
theorem QueueInv.keeps (h : QueueInv c s.queue) {o : QueueStep} (hA : o.Admissible s.queue) :
    Keeps s.queue (o.step c s).queue := by
  cases o with
  | request r => exact .of_eq rfl rfl
  | call => exact .of_eq rfl rfl
  | host => exact h.keeps_host
  | exec i =>
    obtain ⟨-, hs⟩ := hA
    refine .setStage (exec_issued i s) (exec_cmd i s) ?_ fun _ => .inl ?_
    · rw [hs]
      intro hc
      cases hc
    · rw [hs]
      trivial
  | post i x =>
    obtain ⟨-, e, hs⟩ := hA
    have hstep : (QueueStep.post i x).step c s = { s with queue := Nvme.post c i e x s.queue } := by
      simp only [QueueStep.step, hs]
    rw [hstep]
    refine .setStage rfl rfl ?_ fun _ => .inl ?_
    · rw [hs]
      intro hc
      cases hc
    · rw [hs]
      trivial

/-- When nobody holds the lock all requests have returned their identifiers. -/
theorem QueueInv.returned (h : QueueInv c q) (hpc : q.pc = .idle) {i : ℕ} (hi : i < q.issued) :
    (q.cmd i).stage.Returned := by
  cases hs : (q.cmd i).stage with
  | claimed =>
    obtain ⟨-, r, cid, hfill⟩ := h.handed.claimed i hi hs
    rw [hpc] at hfill
    cases hfill
  | filled =>
    obtain ⟨-, r, cid, hbell⟩ := h.handed.filled i hi hs
    rw [hpc] at hbell
    cases hbell
  | _ => trivial

/-- A command that was consumed is among the first completions. -/
theorem QueueInv.consumed_at (h : QueueInv c q) {i : ℕ} (hi : i < q.issued)
    (hs : (q.cmd i).stage = .consumed) : ∃ p < copied q.taken q.pc, q.posted[p]? = some i := by
  have hmem := (h.ring.isConsumed i hi).mp hs
  obtain ⟨p, hp⟩ := List.mem_iff_getElem?.mp hmem
  have hlt : p < q.taken := by
    have hlen := (List.getElem?_eq_some_iff.mp hp).1
    rw [List.length_take] at hlen
    omega
  rw [List.getElem?_take_of_lt hlt] at hp
  refine ⟨p, lt_of_lt_of_le hlt ?_, hp⟩
  cases q.pc <;> simp [copied]

/-- Until its doorbell is rung the holder of the lock works for the same request. -/
theorem host_serves (hpc : ∀ r cid, s.queue.pc ≠ .doorbell r cid) :
    (hostStep c s).queue.pc.serves = s.queue.pc.serves := by
  unfold hostStep
  cases hp : s.queue.pc with
  | idle => rw [hp]
  | newSqe r =>
    dsimp only
    unfold Nvme.newSqe
    split_ifs <;> rfl
  | fill r cid => rfl
  | doorbell r cid => exact absurd hp (hpc r cid)
  | checkCq back =>
    dsimp only
    unfold Nvme.testPhase
    split_ifs
    · rfl
    · cases back <;> rfl
  | copy back cid =>
    dsimp only
    unfold Nvme.copyOut
    dsimp only
    split_ifs <;> rfl
  | mark back cid => rfl

/-- The drive leaves the holder of the lock where it is. -/
theorem exec_pc (i : ℕ) (s : Port) : (exec i s).queue.pc = s.queue.pc := by
  unfold Nvme.exec transfer
  dsimp only
  split_ifs <;> rfl

theorem post_pc (i : ℕ) (x : Cqe) (s : Port) :
    ((QueueStep.post i x).step c s).queue.pc = s.queue.pc := by
  simp only [QueueStep.step]
  split <;> rfl

/-- The drive has nothing to do for a queue that is settled. -/
theorem Settled.not_exec (h : Settled q) (i : ℕ) : ¬ (QueueStep.exec i).Admissible q := by
  rintro ⟨hi, hs⟩
  rcases h.done i hi with h | ⟨h, -⟩
  · rw [hs] at h
    cases h
  · rw [hs] at h
    cases h

theorem Settled.not_post (h : Settled q) (i : ℕ) (x : Cqe) : ¬ (QueueStep.post i x).Admissible q := by
  rintro ⟨hi, e, hs⟩
  rcases h.done i hi with h | ⟨h, -⟩
  · rw [hs] at h
    cases h
  · rw [hs] at h
    cases h

/-- Reads can begin. -/
theorem Settled.readPhase (h : Settled s.queue) (hq : QueueInv c s.queue) (X : ℕ → Byte) :
    ReadPhase c X s.queue.issued s where
  reads := ⟨le_rfl, fun i hi _ => h.done i hi, fun i hi hb => absurd hi (by omega),
    fun i hi hb => absurd hi (by omega)⟩
  asked r hr := by
    rw [h.idle] at hr
    cases hr
  brought p _ i hi hb := absurd (hq.ring.posted_lt i (List.mem_of_getElem? hi)) (by omega)

/-- Writes can begin. -/
theorem Settled.writePhase (h : Settled s.queue) (c : QpConfig) :
    WritePhase c (fun _ => False) s.disk s.queue.issued s where
  writes := ⟨le_rfl, fun i hi _ => h.done i hi, fun i hi hb => absurd hi (by omega),
    fun i hi hb => absurd hi (by omega), fun i hi hb => absurd hi (by omega)⟩
  asked r hr := by
    rw [h.idle] at hr
    cases hr
  pending a := .inl rfl

/-- Reads have ended when all were consumed. -/
theorem ReadPhase.settled {X : ℕ → Byte} {base : ℕ} (h : ReadPhase c X base s)
    (hpc : s.queue.pc = .idle)
    (hdone : ∀ i < s.queue.issued, base ≤ i → (s.queue.cmd i).stage = .consumed) :
    Settled s.queue where
  idle := hpc
  done i hi := by
    by_cases hb : base ≤ i
    · exact .inl (hdone i hi hb)
    · exact h.reads.old i hi (by omega)

/-- Writes have ended when all were completed, and the drive holds what they were for. -/
theorem WritePhase.settled {A : ℕ → Prop} {Y : ℕ → Byte} {base : ℕ} (h : WritePhase c A Y base s)
    (hpc : s.queue.pc = .idle)
    (hdone : ∀ i < s.queue.issued, (s.queue.cmd i).stage.Completed) : Settled s.queue ∧ s.disk = Y := by
  refine ⟨⟨hpc, fun i hi => ?_⟩, ?_⟩
  · by_cases hb : base ≤ i
    · have hwrite := (h.writes.job i hi hb).write
      have hstage := hdone i hi
      cases hs : (s.queue.cmd i).stage with
      | consumed => exact .inl rfl
      | posted => exact .inr ⟨rfl, hwrite⟩
      | _ => rw [hs] at hstage; exact hstage.elim
    · exact h.writes.old i hi (by omega)
  · funext a
    refine (h.pending a).resolve_right ?_
    rintro ⟨r, hr, -⟩
    cases hr with
    | asked hr =>
      rw [hpc] at hr
      cases hr
    | @cmd i hi hb hs =>
      have hstage := hdone i hi
      cases hst : (s.queue.cmd i).stage with
      | consumed => rw [hst] at hs; exact hs
      | posted => rw [hst] at hs; exact hs
      | _ => rw [hst] at hstage; exact hstage

/-- What the program does to its memory while nobody holds the lock. -/
theorem WritePhase.store {A : ℕ → Prop} {Y : ℕ → Byte} {base : ℕ} (h : WritePhase c A Y base s)
    (hq : QueueInv c s.queue) (hpc : s.queue.pc = .idle) (user : ℕ → Byte) :
    WritePhase c A Y base { s with user := user } where
  writes := by
    refine ⟨h.writes.base_le, h.writes.old, h.writes.job, fun i hi hb hs => ?_, h.writes.ready⟩
    obtain ⟨-, r, cid, hfill⟩ := hq.handed.claimed i hi hs
    rw [hpc] at hfill
    cases hfill
  asked r hr := by
    have hr : s.queue.pc.asked = some r := hr
    rw [hpc] at hr
    cases hr
  pending := h.pending

end Queue

/-! ### All drives -/

section Drives

variable {c : Config} {core : ℕ} {S : Driver} {o : DriverStep}

theorem port_next (c : Config) (o : DriverStep) (S : Driver) :
    (o.next c S).port (o.did c) (o.core c) =
      o.on.step (c.qp (o.did c) (o.core c)) (S.port (o.did c) (o.core c)) := by
  rw [DriverStep.next, Driver.port_put]

theorem queue_next_of_ne (c : Config) (o : DriverStep) (S : Driver) {did k : ℕ}
    (h : ¬ (did = o.did c ∧ k = o.core c)) : (o.next c S).queue did k = S.queue did k :=
  Driver.put_queue_of_ne _ _ h

theorem disk_next_of_ne (c : Config) (o : DriverStep) (S : Driver) {did : ℕ} (h : did ≠ o.did c) :
    (o.next c S).disk did = S.disk did := by
  simp [DriverStep.next, Driver.put, h]

theorem disk_next (c : Config) (o : DriverStep) (S : Driver) :
    (o.next c S).disk (o.did c) =
      (o.on.step (c.qp (o.did c) (o.core c)) (S.port (o.did c) (o.core c))).disk := by
  simp [DriverStep.next, Driver.put]

theorem user_next (c : Config) (o : DriverStep) (S : Driver) :
    (o.next c S).user =
      (o.on.step (c.qp (o.did c) (o.core c)) (S.port (o.did c) (o.core c))).user := rfl

/-- A drive leaves the holders of the locks where they are. -/
theorem pc_next (ho : ¬ o.IsHost) (did k : ℕ) :
    ((o.next c S).queue did k).pc = (S.queue did k).pc := by
  by_cases hq : did = o.did c ∧ k = o.core c
  · obtain ⟨rfl, rfl⟩ := hq
    change ((o.next c S).port (o.did c) (o.core c)).queue.pc = _
    rw [port_next]
    cases o with
    | exec did k i => exact exec_pc i _
    | post did k i x => exact post_pc i x _
    | _ => exact absurd trivial ho
  · rw [queue_next_of_ne c o S hq]

/-- A drive has work only on the queues of the core whose ULTs request it. -/
theorem Rest.core_eq (h : Rest c core S) (ho : ¬ o.IsHost) (hA : o.Admissible c S) :
    o.core c = core := by
  obtain ⟨hd, hk, hA, -⟩ := hA
  by_contra hne
  have hs := h _ hd _ hk hne
  cases o with
  | exec did k i => exact hs.not_exec i hA
  | post did k i x => exact hs.not_post i x hA
  | _ => exact ho trivial

theorem Rest.next (h : Rest c core S) (hcore : o.core c = core) : Rest c core (o.next c S) := by
  intro did hd k hk hne
  rw [queue_next_of_ne c o S fun he => hne (he.2.trans hcore)]
  exact h did hd k hk hne

theorem DriverInv.keeps (h : DriverInv c S) (hA : o.Admissible c S) {did k : ℕ} (hd : did < c.nd)
    (hk : k < c.nCore) : Keeps (S.queue did k) ((o.next c S).queue did k) := by
  by_cases hq : did = o.did c ∧ k = o.core c
  · obtain ⟨rfl, rfl⟩ := hq
    have hkeep := (h _ hd _ hk).keeps (s := S.port (o.did c) (o.core c)) hA.2.2.1
    rw [← port_next] at hkeep
    exact hkeep
  · rw [queue_next_of_ne c o S hq]
    exact .refl _

/-- Reads can begin on any core. -/
theorem DriverInv.reading (h : DriverInv c S)
    (hs : ∀ did < c.nd, ∀ k < c.nCore, Settled (S.queue did k)) (hcore : core < c.nCore)
    (X : ℕ → Byte) : Reading c core X (fun did => (S.queue did core).issued) S where
  phase did hd := (hs did hd core hcore).readPhase (s := S.port did core) (h did hd core hcore) X
  rest did hd k hk _ := hs did hd k hk

/-- Writes can begin on any core. -/
theorem writing_of_settled (hs : ∀ did < c.nd, ∀ k < c.nCore, Settled (S.queue did k))
    (hcore : core < c.nCore) :
    Writing c core (fun _ _ => False) S.disk (fun did => (S.queue did core).issued) S where
  phase did hd := (hs did hd core hcore).writePhase (s := S.port did core) (c.qp did core)
  rest did hd k hk _ := hs did hd k hk

/-- A step while reads are requested. -/
theorem Reading.next {X : ℕ → Byte} {base : ℕ → ℕ} (h : Reading c core X base S)
    (hinv : DriverInv c S) (hc : c.Valid) (ha : c.Addressed) (hA : o.Admissible c S)
    (hcore : o.core c = core)
    (hjob : ∀ r, o.on = .request r → ReadJob (c.qp (o.did c) core) X (S.disk (o.did c)) r) :
    Reading c core X base (o.next c S) ∧ (o.next c S).disk = S.disk ∧
      Toward X S.user (o.next c S).user := by
  subst hcore
  obtain ⟨hphase, hdisk, htoward⟩ := (h.phase _ hA.1).step (hinv _ hA.1 _ hA.2.1)
    (hc.qp _ hA.1 _ hA.2.1) (ha _ hA.1 _ hA.2.1) hA.2.2.1 hjob
  have hdisk' : (o.next c S).disk = S.disk := by
    funext did
    by_cases he : did = o.did c
    · rw [he, disk_next, hdisk]
      rfl
    · exact disk_next_of_ne c o S he
  refine ⟨⟨fun did hd => ?_, h.rest.next rfl⟩, hdisk', htoward⟩
  by_cases he : did = o.did c
  · subst he
    rw [port_next]
    exact hphase
  · have hport : (o.next c S).port did (o.core c) =
        { S.port did (o.core c) with user := (o.next c S).user } := by
      rw [Driver.port, queue_next_of_ne c o S fun hc => he hc.1, hdisk']
      rfl
    rw [hport]
    exact (h.phase did hd).user htoward

variable {A : ℕ → ℕ → Prop} {Y : ℕ → ℕ → Byte} {base : ℕ → ℕ}

/-- The queue of another drive sees nothing of a step that leaves user memory as it is. -/
theorem port_next_of_ne {did k : ℕ} (he : did ≠ o.did c) (hu : (o.next c S).user = S.user) :
    (o.next c S).port did k = S.port did k := by
  rw [Driver.port, queue_next_of_ne c o S fun hc => he hc.1, disk_next_of_ne c o S he, hu]
  rfl

/-- A step while writes are requested, other than a request. -/
theorem Writing.next (h : Writing c core A Y base S) (hinv : DriverInv c S) (hc : c.Valid)
    (ha : c.Addressed) (hA : o.Admissible c S) (hcore : o.core c = core)
    (ho : ∀ r, o.on ≠ .request r) :
    Writing c core A Y base (o.next c S) ∧ (o.next c S).user = S.user := by
  subst hcore
  obtain ⟨hphase, huser⟩ := (h.phase _ hA.1).step (hinv _ hA.1 _ hA.2.1)
    (hc.qp _ hA.1 _ hA.2.1) (ha _ hA.1 _ hA.2.1) hA.2.2.1 ho
  refine ⟨⟨fun did hd => ?_, h.rest.next rfl⟩, huser⟩
  by_cases he : did = o.did c
  · subst he
    rw [port_next]
    exact hphase
  · rw [port_next_of_ne he huser]
    exact h.phase did hd

/-- A request for other bytes than those of `A`. -/
theorem Writing.request (h : Writing c core A Y base S) {r : Request} {did : ℕ} (hd : did < c.nd)
    (hdid : o.did c = did) (hcore : o.core c = core) (hon : o.on = .request r)
    (hpc : (S.queue did core).pc = .idle) {B : ℕ → ℕ → Prop} (hAB : ∀ d a, A d a → B d a)
    (hjob : WriteJob (c.qp did core) (B did) r)
    (hout : ∀ a, r.Targets (c.qp did core) a → ¬ A did a) :
    Writing c core B (Function.update Y did
      (blit (Y did) S.user (r.start (c.qp did core)) r.buf r.len)) base (o.next c S) ∧
      (o.next c S).user = S.user := by
  subst hdid hcore
  have huser : (o.next c S).user = S.user := by rw [user_next, hon]; rfl
  refine ⟨⟨fun d hd' => ?_, h.rest.next rfl⟩, huser⟩
  by_cases he : d = o.did c
  · subst he
    rw [port_next, hon, Function.update_self]
    exact (h.phase _ hd).request hpc (hAB _) hjob hout
  · rw [port_next_of_ne he huser, Function.update_of_ne he]
    obtain ⟨hw, hask, hpend⟩ := h.phase d hd'
    refine ⟨⟨hw.base_le, hw.old, ?_, hw.source, hw.ready⟩, ?_, hpend⟩
    · exact fun i hi hb => (hw.job i hi hb).mono (hAB d)
    · exact fun r' hr' => (hask r' hr').imp_left fun hj => hj.mono (hAB d)

/-- Reads have ended when all were consumed. -/
theorem Reading.settled {X : ℕ → Byte} (h : Reading c core X base S)
    (hpc : ∀ did < c.nd, (S.queue did core).pc = .idle)
    (hdone : ∀ did < c.nd, ∀ i < (S.queue did core).issued, base did ≤ i →
      ((S.queue did core).cmd i).stage = .consumed) :
    ∀ did < c.nd, ∀ k < c.nCore, Settled (S.queue did k) := by
  intro did hd k hk
  by_cases he : k = core
  · subst he
    exact (h.phase did hd).settled (hpc did hd) (hdone did hd)
  · exact h.rest did hd k hk he

/-- Writes have ended when all were completed. -/
theorem Writing.settled (h : Writing c core A Y base S)
    (hpc : ∀ did < c.nd, (S.queue did core).pc = .idle)
    (hdone : ∀ did < c.nd, ∀ k < c.nCore, ∀ i < (S.queue did k).issued,
      ((S.queue did k).cmd i).stage.Completed)
    (hcore : core < c.nCore) :
    (∀ did < c.nd, ∀ k < c.nCore, Settled (S.queue did k)) ∧ ∀ did < c.nd, S.disk did = Y did := by
  refine ⟨fun did hd k hk => ?_, fun did hd => ?_⟩
  · by_cases he : k = core
    · subst he
      exact ((h.phase did hd).settled (hpc did hd) (hdone did hd k hk)).1
    · exact h.rest did hd k hk he
  · exact ((h.phase did hd).settled (hpc did hd) (hdone did hd core hcore)).2

/-- What the program does to its memory between its calls. -/
theorem Writing.store (h : Writing c core A Y base S) (hinv : DriverInv c S) (hcore : core < c.nCore)
    (hpc : ∀ did < c.nd, (S.queue did core).pc = .idle) (user : ℕ → Byte) :
    Writing c core A Y base { S with user := user } where
  phase did hd := (h.phase did hd).store (hinv did hd core hcore) (hpc did hd) user
  rest := h.rest

end Drives

end Pthabt.Nvme
