import Pthabt.Nvme.QueueInv

/-! The data of the commands of a queue while only reads, or only writes, are requested. A
queue may still have completions of earlier writes to consume. Reads are to fill user
memory as `X` says, writes to fill the drive as `Y` says, and whatever the queue does
changes a byte to what it is to be or not at all. -/

namespace Pthabt.Nvme

open Lib Bytes

/-- Physical addresses have 64 bits. -/
def QpConfig.Addressed (c : QpConfig) : Prop :=
  ∀ p < n2mbPage c.qd, c.pa p + 2 * 1024 * 1024 ≤ 2 ^ 64

/-- Some sectors that fit a DMA buffer, and a buffer not longer than they are. -/
structure Request.Whole (r : Request) : Prop where
  pos : 1 ≤ r.numBlk
  le : r.numBlk * 512 ≤ blksz
  len_le : r.len ≤ r.numBlk * 512

/-- The drive's address of the first byte of a request. -/
def Request.start (c : QpConfig) (r : Request) : ℕ := reqCdw10 c.nd r.lba * 512

/-- The request that the holder of the lock works for, before it has a slot. -/
def HostPc.asked : HostPc → Option Request
  | .newSqe r => some r
  | .checkCq back | .copy back _ | .mark back _ => back
  | _ => none

/-- The drive has moved the data. -/
def Stage.Moved : Stage → Prop
  | .executed _ | .posted => True
  | _ => False

theorem buf4kPa_lt {c : QpConfig} (h : c.Valid) (ha : c.Addressed) {cid : ℕ} (hcid : cid < c.qd) :
    c.buf4kPa cid < 2 ^ 64 := by
  have hn := n2mbPage_eq h
  have hpos : 0 < n2mbPage c.qd := by have := h.pos; omega
  have hlow : cid / n2mbPage c.qd < 512 := (Nat.div_lt_iff_lt_mul hpos).mpr (by omega)
  have hpage := ha _ (Nat.mod_lt cid hpos)
  unfold QpConfig.buf4kPa
  rw [blksz]
  omega

theorem Request.Whole.sectors {r : Request} (h : r.Whole) : r.cdw12 % 2 ^ 16 + 1 = r.numBlk := by
  have hpos := h.pos
  have hle := h.le
  rw [blksz] at hle
  unfold Request.cdw12
  omega

section Exec

variable {c : QpConfig} {s : Port} {i : ℕ}

/-- The execution of a read. -/
theorem QueueInv.exec_read (h : QueueInv c s.queue) (hc : c.Valid) (ha : c.Addressed)
    (hi : i < s.queue.issued) (hs : (s.queue.cmd i).stage = .submitted)
    (hr : (s.queue.cmd i).req.write = false) (hw : (s.queue.cmd i).req.Whole) :
    Nvme.exec i s = { s with queue := { s.queue with
      dma := blit s.queue.dma s.disk (c.buf4kPa (s.queue.cmd i).cid) ((s.queue.cmd i).req.start c)
        ((s.queue.cmd i).req.numBlk * 512)
      cmd := setStage s.queue.cmd i (.executed (sqeOf c (s.queue.cmd i))) } } := by
  have hread := h.wiring.written i hi (by rw [hs]; trivial)
  have hpa := Nat.mod_eq_of_lt (buf4kPa_lt hc ha (h.slots.cid_lt i hi))
  have hopc : (sqeOf c (s.queue.cmd i)).opc = 0x2 := by simp [sqeOf, Request.opc, hr]
  have hn : (sqeOf c (s.queue.cmd i)).cdw12 % 2 ^ 16 + 1 = (s.queue.cmd i).req.numBlk := hw.sectors
  unfold Nvme.exec transfer
  dsimp only
  rw [hread, hn, if_pos hopc]
  simp only [sqeOf, hpa, Request.start]

/-- The execution of a write. -/
theorem QueueInv.exec_write (h : QueueInv c s.queue) (hc : c.Valid) (ha : c.Addressed)
    (hi : i < s.queue.issued) (hs : (s.queue.cmd i).stage = .submitted)
    (hr : (s.queue.cmd i).req.write = true) (hw : (s.queue.cmd i).req.Whole) :
    Nvme.exec i s = { s with
      queue := { s.queue with
        cmd := setStage s.queue.cmd i (.executed (sqeOf c (s.queue.cmd i))) }
      disk := blit s.disk s.queue.dma ((s.queue.cmd i).req.start c) (c.buf4kPa (s.queue.cmd i).cid)
        ((s.queue.cmd i).req.numBlk * 512) } := by
  have hread := h.wiring.written i hi (by rw [hs]; trivial)
  have hpa := Nat.mod_eq_of_lt (buf4kPa_lt hc ha (h.slots.cid_lt i hi))
  have hopc : (sqeOf c (s.queue.cmd i)).opc = 0x1 := by simp [sqeOf, Request.opc, hr]
  have hne : (sqeOf c (s.queue.cmd i)).opc ≠ 0x2 := by rw [hopc]; decide
  have hn : (sqeOf c (s.queue.cmd i)).cdw12 % 2 ^ 16 + 1 = (s.queue.cmd i).req.numBlk := hw.sectors
  unfold Nvme.exec transfer
  dsimp only
  rw [hread, hn, if_neg hne, if_pos hopc]
  simp only [sqeOf, hpa, Request.start]

end Exec

/-! ### Reads -/

/-- A read of bytes that are as `X` wants them in user memory. -/
structure ReadJob (c : QpConfig) (X disk : ℕ → Byte) (r : Request) : Prop where
  read : r.write = false
  whole : r.Whole
  wanted : ∀ k < r.len, disk (r.start c + k) = X (r.buf + k)

/-- Each byte stays or becomes what `X` says. -/
def Toward (X user user' : ℕ → Byte) : Prop := ∀ a, user' a = user a ∨ user' a = X a

theorem Toward.refl (X user : ℕ → Byte) : Toward X user user := fun _ => Or.inl rfl

theorem Toward.keep {X user user' : ℕ → Byte} (h : Toward X user user') {a : ℕ}
    (ha : user a = X a) : user' a = X a := by
  rcases h a with hu | hu
  · rw [hu, ha]
  · exact hu

/-- The commands of a queue while reads are requested; those from `base` on are these. -/
structure Reads (c : QpConfig) (X disk : ℕ → Byte) (base : ℕ) (cmd : ℕ → Cmd) (issued : ℕ)
    (dma : ℕ → Byte) : Prop where
  base_le : base ≤ issued
  old : ∀ i < issued, i < base → (cmd i).stage = .consumed ∨
    ((cmd i).stage = .posted ∧ (cmd i).req.write = true)
  job : ∀ i < issued, base ≤ i → ReadJob c X disk (cmd i).req
  moved : ∀ i < issued, base ≤ i → (cmd i).stage.Moved →
    Agree dma (c.buf4kPa (cmd i).cid) disk ((cmd i).req.start c) ((cmd i).req.numBlk * 512)

/-- What the first `n` completions were to bring is in user memory. -/
def Brought (X : ℕ → Byte) (base : ℕ) (cmd : ℕ → Cmd) (posted : List ℕ) (user : ℕ → Byte) (n : ℕ) :
    Prop :=
  ∀ p < n, ∀ i, posted[p]? = some i → base ≤ i →
    ∀ k < (cmd i).req.len, user ((cmd i).req.buf + k) = X ((cmd i).req.buf + k)

/-- A queue while reads are requested. -/
structure ReadPhase (c : QpConfig) (X : ℕ → Byte) (base : ℕ) (s : Port) : Prop where
  reads : Reads c X s.disk base s.queue.cmd s.queue.issued s.queue.dma
  asked : ∀ r, s.queue.pc.asked = some r → ReadJob c X s.disk r
  brought : Brought X base s.queue.cmd s.queue.posted s.user (copied s.queue.taken s.queue.pc)

section Reads

variable {c : QpConfig} {X disk dma : ℕ → Byte} {base issued : ℕ} {cmd : ℕ → Cmd}

theorem Reads.claim (h : Reads c X disk base cmd issued dma) {r : Request} (hr : ReadJob c X disk r)
    (cid : ℕ) :
    Reads c X disk base (Function.update cmd issued ⟨r, cid, .claimed⟩) (issued + 1) dma := by
  have hb := h.base_le
  refine ⟨Nat.le_succ_of_le hb, ?_, ?_, ?_⟩
  · exact forall_claim (P := fun i x => i < base → x.stage = .consumed ∨
      (x.stage = .posted ∧ x.req.write = true)) h.old fun hlt => absurd hlt (by omega)
  · exact forall_claim (P := fun i x => base ≤ i → ReadJob c X disk x.req) h.job fun _ => hr
  · exact forall_claim (P := fun i x => base ≤ i → x.stage.Moved → Agree dma
      (c.buf4kPa x.cid) disk (x.req.start c) (x.req.numBlk * 512)) h.moved fun _ => False.elim

/-- A command changes its stage; an old one can only be consumed. -/
theorem Reads.setStage (h : Reads c X disk base cmd issued dma) {i : ℕ} {st : Stage}
    (hi : base ≤ i ∨ st = .consumed) (hm : st.Moved → (cmd i).stage.Moved) :
    Reads c X disk base (setStage cmd i st) issued dma := by
  refine ⟨h.base_le, ?_, ?_, ?_⟩
  · intro k hk hb
    by_cases he : k = i
    · subst he
      exact Or.inl ((setStage_self ..).trans (hi.resolve_left (by omega)))
    · rw [setStage_of_ne _ _ he]
      exact h.old k hk hb
  · intro k hk hb
    rw [setStage_req]
    exact h.job k hk hb
  · intro k hk hb hs
    rw [setStage_cid, setStage_req]
    by_cases he : k = i
    · subst he
      rw [setStage_self] at hs
      exact h.moved k hk hb (hm hs)
    · rw [setStage_of_ne _ _ he] at hs
      exact h.moved k hk hb hs

/-- The drive fills the buffer of command `i`. -/
theorem Reads.exec (h : Reads c X disk base cmd issued dma) {i : ℕ} (hi : i < issued)
    (hb : base ≤ i) {n : ℕ} (hn : n = (cmd i).req.numBlk * 512)
    (hapart : ∀ k < issued, (cmd k).stage.Moved →
      Apart (c.buf4kPa (cmd k).cid) blksz (c.buf4kPa (cmd i).cid) blksz) (e : Sqe) :
    Reads c X disk base (Nvme.setStage cmd i (.executed e)) issued
      (blit dma disk (c.buf4kPa (cmd i).cid) ((cmd i).req.start c) n) := by
  have hle := (h.job i hi hb).whole.le
  refine ⟨h.base_le, ?_, ?_, ?_⟩
  · intro k hk hkb
    rw [setStage_of_ne _ _ (by omega)]
    exact h.old k hk hkb
  · intro k hk hkb
    rw [setStage_req]
    exact h.job k hk hkb
  · intro k hk hkb hs
    rw [setStage_cid, setStage_req]
    by_cases he : k = i
    · subst he
      rw [hn]
      exact blit_agree _ _ _ _ _
    · rw [setStage_of_ne _ _ he] at hs
      have hlek := (h.job k hk hkb).whole.le
      exact (h.moved k hk hkb hs).blit_left _ ((hapart k hk hs).mono hlek (hn ▸ hle))

theorem Brought.user {posted : List ℕ} {user user' : ℕ → Byte} {n : ℕ}
    (h : Brought X base cmd posted user n) (hu : Toward X user user') :
    Brought X base cmd posted user' n :=
  fun p hp i hi hb k hk => hu.keep (h p hp i hi hb k hk)

theorem Brought.setStage {posted : List ℕ} {user : ℕ → Byte} {n : ℕ}
    (h : Brought X base cmd posted user n) (i : ℕ) (st : Stage) :
    Brought X base (Nvme.setStage cmd i st) posted user n := by
  intro p hp k hk hb j hj
  rw [setStage_req] at hj ⊢
  exact h p hp k hk hb j hj

theorem Brought.claim {posted : List ℕ} {user : ℕ → Byte} {n : ℕ}
    (h : Brought X base cmd posted user n) (hlt : ∀ i ∈ posted, i < issued) (x : Cmd) :
    Brought X base (Function.update cmd issued x) posted user n := by
  intro p hp i hi hb k hk
  rw [Function.update_of_ne (hlt i (List.mem_of_getElem? hi)).ne] at hk ⊢
  exact h p hp i hi hb k hk

theorem Brought.append {posted : List ℕ} {user : ℕ → Byte} {n : ℕ}
    (h : Brought X base cmd posted user n) (hn : n ≤ posted.length) (i : ℕ) :
    Brought X base cmd (posted ++ [i]) user n := by
  intro p hp k hk hb j hj
  rw [List.getElem?_append_left (by omega)] at hk
  exact h p hp k hk hb j hj

/-- One more completion was copied. -/
theorem Brought.copy {posted : List ℕ} {user : ℕ → Byte} {n i : ℕ} (h : Brought X base cmd posted user n)
    (hget : posted[n]? = some i)
    (hnew : base ≤ i → ∀ k < (cmd i).req.len, user ((cmd i).req.buf + k) = X ((cmd i).req.buf + k)) :
    Brought X base cmd posted user (n + 1) := by
  intro p hp k hk hkb
  by_cases hlt : p < n
  · exact h p hlt k hk hkb
  · obtain rfl : p = n := by omega
    rw [hget] at hk
    cases hk
    exact hnew hkb

end Reads

section ReadPhase

variable {c : QpConfig} {X : ℕ → Byte} {base : ℕ} {s : Port}

/-- What other queues do to user memory. -/
theorem ReadPhase.user (h : ReadPhase c X base s) {user : ℕ → Byte} (hu : Toward X s.user user) :
    ReadPhase c X base { s with user := user } := ⟨h.reads, h.asked, h.brought.user hu⟩

theorem ReadPhase.newSqe (h : ReadPhase c X base s) (hq : QueueInv c s.queue) {r : Request}
    (hpc : s.queue.pc = .newSqe r) : ReadPhase c X base { s with queue := newSqe c r s.queue } := by
  have hjob := h.asked r (by rw [hpc]; rfl)
  have hb := h.brought
  rw [hpc] at hb
  by_cases hf : s.queue.doneFlag s.queue.sqTail = 0
  · rw [Nvme.newSqe, if_pos hf]
    exact ⟨h.reads, (fun r' hr => by cases hr; exact hjob), hb⟩
  · rw [Nvme.newSqe, if_neg hf]
    exact ⟨h.reads.claim hjob _, (fun r' hr => by cases hr), hb.claim hq.ring.posted_lt _⟩

/-- A request in hand is a command from `base` on. -/
theorem Reads.base_le_of {disk dma : ℕ → Byte} {cmd : ℕ → Cmd} {issued i : ℕ}
    (h : Reads c X disk base cmd issued dma) (hi : i < issued) (hc : (cmd i).stage ≠ .consumed)
    (hp : (cmd i).stage ≠ .posted) : base ≤ i := by
  by_contra hb
  rcases h.old i hi (by omega) with hs | ⟨hs, -⟩
  · exact hc hs
  · exact hp hs

theorem ReadPhase.fill (h : ReadPhase c X base s) (hq : QueueInv c s.queue) {r : Request} {cid : ℕ}
    (hpc : s.queue.pc = .fill r cid) : ReadPhase c X base (fill c r cid s) := by
  obtain ⟨hi, hlast⟩ := hq.filling hpc
  have hb := h.reads.base_le_of hi (by rw [hlast]; simp) (by rw [hlast]; simp)
  have hjob := h.reads.job _ hi hb
  rw [hlast] at hjob
  have hr : r.write = false := hjob.read
  have hbr := h.brought
  rw [hpc] at hbr
  simp only [Nvme.fill, hr]
  exact ⟨h.reads.setStage (Or.inl hb) False.elim, (fun r' hr => by cases hr), hbr.setStage _ _⟩

theorem ReadPhase.doorbell (h : ReadPhase c X base s) (hq : QueueInv c s.queue) {r : Request}
    {cid : ℕ} (hpc : s.queue.pc = .doorbell r cid) :
    ReadPhase c X base { s with queue := doorbell s.queue } := by
  obtain ⟨hi, hlast⟩ := hq.ringing hpc
  have hb := h.reads.base_le_of hi (by rw [hlast]; simp) (by rw [hlast]; simp)
  have hbr := h.brought
  rw [hpc] at hbr
  exact ⟨h.reads.setStage (Or.inl hb) False.elim, (fun r' hr => by cases hr), hbr.setStage _ _⟩

theorem ReadPhase.testPhase (h : ReadPhase c X base s) {back : Option Request}
    (hpc : s.queue.pc = .checkCq back) :
    ReadPhase c X base { s with queue := testPhase back s.queue } := by
  have hasked := h.asked
  have hb := h.brought
  rw [hpc] at hasked hb
  unfold Nvme.testPhase
  split_ifs
  · exact ⟨h.reads, hasked, hb⟩
  · cases back with
    | none => exact ⟨h.reads, (fun r hr => by cases hr), hb⟩
    | some r => exact ⟨h.reads, hasked, hb⟩

/-- The copy brings what the completion was for; an old one brings nothing. -/
theorem ReadPhase.copyOut (h : ReadPhase c X base s) (hq : QueueInv c s.queue) {back : Option Request}
    {cid : ℕ} (hpc : s.queue.pc = .copy back cid) :
    ReadPhase c X base (copyOut c back cid s) ∧ Toward X s.user (copyOut c back cid s).user := by
  have hasked := h.asked
  have hb := h.brought
  rw [hpc] at hasked hb
  obtain ⟨i, hcopying⟩ := hq.copying hpc
  have hi := hcopying.lt
  have hposted := hcopying.posted
  by_cases hold : i < base
  · have hwr : (s.queue.cmd i).req.write = true := by
      rcases h.reads.old i hi hold with hs | ⟨-, hs⟩
      · rw [hposted] at hs
        cases hs
      · exact hs
    rw [hcopying.write hwr]
    exact ⟨⟨h.reads, hasked, Brought.copy hb hcopying.next fun hbi => absurd hold (by omega)⟩, Toward.refl X _⟩
  · have hjob := h.reads.job i hi (by omega)
    have hagree := h.reads.moved i hi (by omega) (by rw [hposted]; trivial)
    rw [hcopying.cid_eq] at hagree
    have hdma : ∀ k < (s.queue.cmd i).req.len, s.queue.dma (c.buf4kPa cid + k) =
        X ((s.queue.cmd i).req.buf + k) := fun k hk => by
      have hlt := hjob.whole.len_le
      rw [hagree k (by omega)]
      exact hjob.wanted k hk
    have htoward : Toward X s.user (blit s.user s.queue.dma (s.queue.cmd i).req.buf (c.buf4kPa cid)
        (s.queue.cmd i).req.len) := by
      intro a
      by_cases ha : (s.queue.cmd i).req.buf ≤ a ∧ a < (s.queue.cmd i).req.buf + (s.queue.cmd i).req.len
      · obtain ⟨k, rfl⟩ := Nat.exists_eq_add_of_le ha.1
        right
        rw [blit_at _ _ (by omega)]
        exact hdma k (by omega)
      · left
        exact blit_outside _ _ (by omega)
    rw [hcopying.read hjob.read]
    exact ⟨⟨h.reads, hasked, (Brought.user hb htoward).copy hcopying.next fun _ k hk =>
      (blit_at _ _ hk).trans (hdma k hk)⟩, htoward⟩

theorem ReadPhase.mark (h : ReadPhase c X base s) {back : Option Request} {cid : ℕ}
    (hpc : s.queue.pc = .mark back cid) :
    ReadPhase c X base { s with queue := mark c back cid s.queue } := by
  have hasked := h.asked
  have hb := h.brought
  rw [hpc] at hasked hb
  exact ⟨h.reads.setStage (Or.inr rfl) False.elim, hasked, hb.setStage _ _⟩

theorem ReadPhase.host (h : ReadPhase c X base s) (hq : QueueInv c s.queue) :
    ReadPhase c X base (hostStep c s) ∧ (hostStep c s).disk = s.disk ∧
      Toward X s.user (hostStep c s).user := by
  unfold hostStep
  cases hpc : s.queue.pc with
  | idle => exact ⟨h, rfl, .refl X _⟩
  | newSqe r => exact ⟨h.newSqe hq hpc, rfl, .refl X _⟩
  | fill r cid => exact ⟨h.fill hq hpc, rfl, .refl X _⟩
  | doorbell r cid => exact ⟨h.doorbell hq hpc, rfl, .refl X _⟩
  | checkCq back => exact ⟨h.testPhase hpc, rfl, .refl X _⟩
  | copy back cid =>
    obtain ⟨hphase, htoward⟩ := h.copyOut hq hpc
    refine ⟨hphase, ?_, htoward⟩
    simp only [Nvme.copyOut]
    split_ifs <;> rfl
  | mark back cid => exact ⟨h.mark hpc, rfl, .refl X _⟩

theorem ReadPhase.exec (h : ReadPhase c X base s) (hq : QueueInv c s.queue) (hc : c.Valid)
    (ha : c.Addressed) {i : ℕ} (hi : i < s.queue.issued) (hs : (s.queue.cmd i).stage = .submitted) :
    ReadPhase c X base (exec i s) ∧ (exec i s).disk = s.disk ∧ (exec i s).user = s.user := by
  have hb := h.reads.base_le_of hi (by rw [hs]; simp) (by rw [hs]; simp)
  have hjob := h.reads.job i hi hb
  rw [hq.exec_read hc ha hi hs hjob.read hjob.whole]
  refine ⟨⟨h.reads.exec hi hb rfl ?_ _, h.asked, h.brought.setStage _ _⟩, rfl, rfl⟩
  intro k hk hm
  refine buf4k_apart hc (hq.slots.cid_lt k hk) (hq.slots.cid_lt i hi) fun he => ?_
  have hne : (s.queue.cmd k).stage ≠ .consumed := by
    intro hcs
    rw [hcs] at hm
    exact hm
  have hki := hq.slots.distinct k hk i hi hne (by rw [hs]; simp) he
  rw [hki, hs] at hm
  exact hm

theorem ReadPhase.post (h : ReadPhase c X base s) (hq : QueueInv c s.queue) {i : ℕ}
    (hi : i < s.queue.issued) {e : Sqe} (hs : (s.queue.cmd i).stage = .executed e) (x : Cqe) :
    ReadPhase c X base { s with queue := post c i e x s.queue } := by
  have hb := h.reads.base_le_of hi (by rw [hs]; simp) (by rw [hs]; simp)
  exact ⟨h.reads.setStage (Or.inl hb) fun _ => by rw [hs]; trivial, h.asked,
    (h.brought.setStage _ _).append hq.copied_le i⟩

/-- Any step of the queue, when what is requested are such reads. -/
theorem ReadPhase.step (h : ReadPhase c X base s) (hq : QueueInv c s.queue) (hc : c.Valid)
    (ha : c.Addressed) {o : QueueStep} (hA : o.Admissible s.queue)
    (hjob : ∀ r, o = .request r → ReadJob c X s.disk r) :
    ReadPhase c X base (o.step c s) ∧ (o.step c s).disk = s.disk ∧
      Toward X s.user (o.step c s).user := by
  cases o with
  | request r =>
    have hb := h.brought
    rw [hA.1] at hb
    exact ⟨⟨h.reads, (fun r' hr => by cases hr; exact hjob r rfl), hb⟩, rfl, .refl X _⟩
  | call =>
    have hb := h.brought
    rw [hA] at hb
    exact ⟨⟨h.reads, (fun r' hr => by cases hr), hb⟩, rfl, .refl X _⟩
  | host => exact h.host hq
  | exec i =>
    obtain ⟨hphase, hdisk, huser⟩ := h.exec hq hc ha hA.1 hA.2
    refine ⟨hphase, hdisk, ?_⟩
    change Toward X s.user (Nvme.exec i s).user
    rw [huser]
    exact .refl X _
  | post i x =>
    obtain ⟨hi, e, hs⟩ := hA
    have hstep : (QueueStep.post i x).step c s = { s with queue := Nvme.post c i e x s.queue } := by
      simp only [QueueStep.step, hs]
    rw [hstep]
    exact ⟨h.post hq hi hs x, rfl, .refl X _⟩

end ReadPhase

end Pthabt.Nvme
