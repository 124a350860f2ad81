import Pthabt.Nvme.Phases

/-! A queue while writes are requested, each for other bytes of the drive. `Y` is what the drive
will hold when it has executed all of them: a byte that differs from it yet is one that a
request is still to write. -/

namespace Pthabt.Nvme

open Lib Bytes

/-- The bytes of the drive that a request is for. -/
def Request.Targets (c : QpConfig) (r : Request) (a : ℕ) : Prop :=
  r.start c ≤ a ∧ a < r.start c + r.numBlk * 512

/-- A write of whole sectors among the bytes `A` of the drive. -/
structure WriteJob (c : QpConfig) (A : ℕ → Prop) (r : Request) : Prop where
  write : r.write = true
  whole : r.Whole
  full : r.len = r.numBlk * 512
  within : ∀ a, r.Targets c a → A a

theorem WriteJob.mono {c : QpConfig} {A B : ℕ → Prop} {r : Request} (h : WriteJob c A r)
    (hAB : ∀ a, A a → B a) : WriteJob c B r :=
  ⟨h.write, h.whole, h.full, fun a ha => hAB a (h.within a ha)⟩

/-- The buffer of a request holds what the drive is to hold. -/
def Sourced (c : QpConfig) (Y user : ℕ → Byte) (r : Request) : Prop :=
  ∀ k < r.len, user (r.buf + k) = Y (r.start c + k)

/-- The drive has not executed the command. -/
def Stage.Unmoved : Stage → Prop
  | .claimed | .filled | .submitted => True
  | _ => False

theorem Stage.Written.unmoved {st : Stage} (h : st.Written) : st.Unmoved := by
  cases st <;> trivial

/-- The commands of a queue while writes are requested; those from `base` on are these. -/
structure Writes (c : QpConfig) (A : ℕ → Prop) (Y user : ℕ → Byte) (base : ℕ) (cmd : ℕ → Cmd) (issued : ℕ)
    (dma : ℕ → Byte) : Prop where
  base_le : base ≤ issued
  old : ∀ i < issued, i < base → (cmd i).stage = .consumed ∨
    ((cmd i).stage = .posted ∧ (cmd i).req.write = true)
  job : ∀ i < issued, base ≤ i → WriteJob c A (cmd i).req
  source : ∀ i < issued, base ≤ i → (cmd i).stage = .claimed → Sourced c Y user (cmd i).req
  ready : ∀ i < issued, base ≤ i → (cmd i).stage.Written →
    Agree dma (c.buf4kPa (cmd i).cid) Y ((cmd i).req.start c) ((cmd i).req.numBlk * 512)

/-- The request is one that the drive is still to execute. -/
inductive Pending (base : ℕ) (q : Queue) : Request → Prop
  | asked {r} : q.pc.asked = some r → Pending base q r
  | cmd {i} : i < q.issued → base ≤ i → (q.cmd i).stage.Unmoved → Pending base q (q.cmd i).req

/-- A queue while writes are requested. -/
structure WritePhase (c : QpConfig) (A : ℕ → Prop) (Y : ℕ → Byte) (base : ℕ) (s : Port) : Prop where
  writes : Writes c A Y s.user base s.queue.cmd s.queue.issued s.queue.dma
  asked : ∀ r, s.queue.pc.asked = some r → WriteJob c A r ∧ Sourced c Y s.user r
  pending : ∀ a, s.disk a = Y a ∨ ∃ r, Pending base s.queue r ∧ r.Targets c a

section Writes

variable {c : QpConfig} {A : ℕ → Prop} {Y user dma : ℕ → Byte} {base issued : ℕ} {cmd : ℕ → Cmd}

theorem Writes.claim (h : Writes c A Y user base cmd issued dma) {r : Request} (hr : WriteJob c A r)
    (hs : Sourced c Y user r) (cid : ℕ) :
    Writes c A Y user base (Function.update cmd issued ⟨r, cid, .claimed⟩) (issued + 1) dma := by
  have hb := h.base_le
  refine ⟨Nat.le_succ_of_le hb, ?_, ?_, ?_, ?_⟩
  · exact forall_claim (P := fun i x => i < base → x.stage = .consumed ∨
      (x.stage = .posted ∧ x.req.write = true)) h.old fun hlt => absurd hlt (by omega)
  · exact forall_claim (P := fun i x => base ≤ i → WriteJob c A x.req) h.job fun _ => hr
  · exact forall_claim (P := fun i x => base ≤ i → x.stage = .claimed → Sourced c Y user x.req)
      h.source fun _ _ => hs
  · exact forall_claim (P := fun i x => base ≤ i → x.stage.Written → Agree dma
      (c.buf4kPa x.cid) Y (x.req.start c) (x.req.numBlk * 512)) h.ready fun _ => False.elim

/-- A command changes its stage; an old one can only be consumed. -/
theorem Writes.setStage (h : Writes c A Y user base cmd issued dma) {i : ℕ} {st : Stage}
    (hi : base ≤ i ∨ st = .consumed) (hc : st ≠ .claimed)
    (hw : i < issued → base ≤ i → st.Written →
      Agree dma (c.buf4kPa (cmd i).cid) Y ((cmd i).req.start c) ((cmd i).req.numBlk * 512)) :
    Writes c A Y user base (setStage cmd i st) issued dma := by
  refine ⟨h.base_le, ?_, ?_, ?_, ?_⟩
  · intro k hk hb
    by_cases he : k = i
    · subst he
      exact Or.inl ((setStage_self ..).trans (hi.resolve_left (by omega)))
    · rw [setStage_of_ne _ _ he]
      exact h.old k hk hb
  · intro k hk hb
    rw [setStage_req]
    exact h.job k hk hb
  · intro k hk hb hs
    rw [setStage_req]
    by_cases he : k = i
    · subst he
      exact absurd ((setStage_self ..).symm.trans hs) hc
    · rw [setStage_of_ne _ _ he] at hs
      exact h.source k hk hb hs
  · intro k hk hb hs
    rw [setStage_cid, setStage_req]
    by_cases he : k = i
    · subst he
      rw [setStage_self] at hs
      exact hw hk hb hs
    · rw [setStage_of_ne _ _ he] at hs
      exact h.ready k hk hb hs

/-- A copy to a DMA buffer that no written command uses. -/
theorem Writes.blit (h : Writes c A Y user base cmd issued dma) (src : ℕ → Byte) {d t n : ℕ}
    (hapart : ∀ k < issued, base ≤ k → (cmd k).stage.Written →
      Apart (c.buf4kPa (cmd k).cid) ((cmd k).req.numBlk * 512) d n) :
    Writes c A Y user base cmd issued (blit dma src d t n) :=
  ⟨h.base_le, h.old, h.job, h.source,
    fun k hk hb hs => (h.ready k hk hb hs).blit_left src (hapart k hk hb hs)⟩

end Writes

section WritePhase

variable {c : QpConfig} {A : ℕ → Prop} {Y : ℕ → Byte} {base : ℕ} {s : Port}

/-- A stage changes, and what was still to be executed is so afterwards. -/
theorem Pending.setStage {q q' : Queue} {r : Request} (h : Pending base q r) {i : ℕ} {st : Stage}
    (hpc : ∀ r, q.pc.asked = some r → q'.pc.asked = some r) (hissued : q'.issued = q.issued)
    (hcmd : q'.cmd = Nvme.setStage q.cmd i st) (hst : (q.cmd i).stage.Unmoved → st.Unmoved) :
    Pending base q' r := by
  cases h with
  | asked hr => exact .asked (hpc r hr)
  | @cmd k hk hb hs =>
    have hreq : (q'.cmd k).req = (q.cmd k).req := by rw [hcmd, setStage_req]
    rw [← hreq]
    refine .cmd (hissued.symm ▸ hk) hb ?_
    rw [hcmd]
    by_cases he : k = i
    · subst he
      rw [setStage_self]
      exact hst hs
    · rwa [setStage_of_ne _ _ he]

theorem Pending.congr {q q' : Queue} {r : Request} (h : Pending base q r)
    (hpc : ∀ r, q.pc.asked = some r → q'.pc.asked = some r) (hissued : q'.issued = q.issued)
    (hcmd : q'.cmd = q.cmd) : Pending base q' r := by
  cases h with
  | asked hr => exact .asked (hpc r hr)
  | cmd hk hb hs =>
    rw [← hcmd] at hs ⊢
    exact .cmd (hissued.symm ▸ hk) hb hs

/-- A request in hand is a command from `base` on. -/
theorem Writes.base_le_of {Y user dma : ℕ → Byte} {cmd : ℕ → Cmd} {issued i : ℕ}
    (h : Writes c A Y user base cmd issued dma) (hi : i < issued) (hc : (cmd i).stage ≠ .consumed)
    (hp : (cmd i).stage ≠ .posted) : base ≤ i := by
  by_contra hb
  rcases h.old i hi (by omega) with hs | ⟨hs, -⟩
  · exact hc hs
  · exact hp hs

theorem WritePhase.newSqe (h : WritePhase c A Y base s) {r : Request}
    (hpc : s.queue.pc = .newSqe r) : WritePhase c A Y base { s with queue := newSqe c r s.queue } := by
  obtain ⟨hjob, hsource⟩ := h.asked r (by rw [hpc]; rfl)
  by_cases hf : s.queue.doneFlag s.queue.sqTail = 0
  · rw [Nvme.newSqe, if_pos hf]
    refine ⟨h.writes, fun r' hr => by cases hr; exact ⟨hjob, hsource⟩, fun a => ?_⟩
    refine (h.pending a).imp_right ?_
    rintro ⟨r', hr', ht⟩
    refine ⟨r', hr'.congr ?_ rfl rfl, ht⟩
    intro r'' hr''
    rw [hpc] at hr''
    exact hr''
  · rw [Nvme.newSqe, if_neg hf]
    refine ⟨h.writes.claim hjob hsource _, (fun r' hr => by cases hr), fun a => ?_⟩
    refine (h.pending a).imp_right ?_
    rintro ⟨r', hr', ht⟩
    cases hr' with
    | asked hr =>
      rw [hpc] at hr
      obtain rfl : r = r' := Option.some.inj hr
      have hself : Function.update s.queue.cmd s.queue.issued ⟨r, s.queue.sqTail, .claimed⟩
          s.queue.issued = ⟨r, s.queue.sqTail, .claimed⟩ := Function.update_self ..
      refine ⟨_, .cmd (Nat.lt_succ_self s.queue.issued) h.writes.base_le ?_, ?_⟩
      · change (Function.update s.queue.cmd _ _ _).stage.Unmoved
        rw [hself]
        trivial
      · change ((Function.update s.queue.cmd _ _ _).req).Targets c a
        rw [hself]
        exact ht
    | @cmd k hk hb hs =>
      have hne : Function.update s.queue.cmd s.queue.issued ⟨r, s.queue.sqTail, .claimed⟩ k =
          s.queue.cmd k := Function.update_of_ne hk.ne ..
      refine ⟨_, .cmd (Nat.lt_succ_of_lt hk) hb ?_, ?_⟩
      · change (Function.update s.queue.cmd _ _ _).stage.Unmoved
        rw [hne]
        exact hs
      · change ((Function.update s.queue.cmd _ _ _).req).Targets c a
        rw [hne]
        exact ht

theorem WritePhase.fill (h : WritePhase c A Y base s) (hq : QueueInv c s.queue) (hc : c.Valid)
    {r : Request} {cid : ℕ} (hpc : s.queue.pc = .fill r cid) :
    WritePhase c A Y base (fill c r cid s) := by
  obtain ⟨hi, hlast⟩ := hq.filling hpc
  have hb := h.writes.base_le_of hi (by rw [hlast]; simp) (by rw [hlast]; simp)
  have hjob : WriteJob c A r := by
    have hlast_job := h.writes.job _ hi hb
    rwa [hlast] at hlast_job
  have hsource : Sourced c Y s.user r := by
    have hlast_source := h.writes.source _ hi hb (by rw [hlast])
    rwa [hlast] at hlast_source
  have hle := hjob.whole.le
  have hfull := hjob.full
  have hwr := hjob.write
  have hblit : Writes c A Y s.user base s.queue.cmd s.queue.issued
      (blit s.queue.dma s.user (c.buf4kPa cid) r.buf r.len) := by
    refine h.writes.blit _ fun k hk hkb hw => ?_
    have hcid : (s.queue.cmd k).cid ≠ cid := by
      intro he
      have hke := hq.slots.distinct k hk _ hi hw.wired.not_consumed (by rw [hlast]; simp)
        (by rw [hlast]; exact he)
      rw [hke, hlast] at hw
      exact hw
    have hcl := hq.slots.cid_lt _ hi
    rw [hlast] at hcl
    exact (buf4k_apart hc (hq.slots.cid_lt k hk) hcl hcid).mono (h.writes.job k hk hkb).whole.le
      (by omega)
  have hfilled : Stage.filled ≠ .claimed := by simp
  simp only [Nvme.fill, hwr, if_true]
  refine ⟨hblit.setStage (.inl hb) hfilled fun _ _ _ => ?_, (fun r' hr => by cases hr), fun a => ?_⟩
  · rw [hlast]
    intro k hk
    have hk : k < r.len := hfull.symm ▸ hk
    exact (blit_at _ _ hk).trans (hsource k hk)
  · refine (h.pending a).imp_right ?_
    rintro ⟨r', hr', ht⟩
    refine ⟨r', hr'.setStage ?_ rfl rfl fun _ => trivial, ht⟩
    intro r'' hr''
    rw [hpc] at hr''
    cases hr''

theorem WritePhase.doorbell (h : WritePhase c A Y base s) (hq : QueueInv c s.queue) {r : Request}
    {cid : ℕ} (hpc : s.queue.pc = .doorbell r cid) :
    WritePhase c A Y base { s with queue := doorbell s.queue } := by
  obtain ⟨hi, hlast⟩ := hq.ringing hpc
  have hb := h.writes.base_le_of hi (by rw [hlast]; simp) (by rw [hlast]; simp)
  have hready := h.writes.ready _ hi hb (by rw [hlast]; trivial)
  refine ⟨h.writes.setStage (.inl hb) (by simp) fun _ _ _ => hready, (fun r' hr => by cases hr),
    fun a => ?_⟩
  refine (h.pending a).imp_right ?_
  rintro ⟨r', hr', ht⟩
  refine ⟨r', hr'.setStage ?_ rfl rfl fun _ => trivial, ht⟩
  intro r'' hr''
  rw [hpc] at hr''
  cases hr''

theorem WritePhase.testPhase (h : WritePhase c A Y base s) {back : Option Request}
    (hpc : s.queue.pc = .checkCq back) :
    WritePhase c A Y base { s with queue := testPhase back s.queue } := by
  have hasked := h.asked
  have hpc' : ∀ q : Queue, q.pc.asked = s.queue.pc.asked → q.issued = s.queue.issued →
      q.cmd = s.queue.cmd → ∀ a, s.disk a = Y a ∨ ∃ r, Pending base q r ∧ r.Targets c a := by
    intro q hask hissued hcmd a
    refine (h.pending a).imp_right ?_
    rintro ⟨r, hr, ht⟩
    refine ⟨r, hr.congr ?_ hissued hcmd, ht⟩
    exact fun r' hr' => hask.trans hr'
  rw [hpc] at hasked
  unfold Nvme.testPhase
  split_ifs
  · exact ⟨h.writes, hasked, hpc' _ (by rw [hpc]; rfl) rfl rfl⟩
  · cases back with
    | none => exact ⟨h.writes, (fun r hr => by cases hr), hpc' _ (by rw [hpc]; rfl) rfl rfl⟩
    | some r => exact ⟨h.writes, hasked, hpc' _ (by rw [hpc]; rfl) rfl rfl⟩

/-- The completion of a write copies nothing. -/
theorem WritePhase.copyOut (h : WritePhase c A Y base s) (hq : QueueInv c s.queue)
    {back : Option Request} {cid : ℕ} (hpc : s.queue.pc = .copy back cid) :
    WritePhase c A Y base (copyOut c back cid s) ∧ (copyOut c back cid s).user = s.user := by
  have hasked := h.asked
  rw [hpc] at hasked
  obtain ⟨i, hcopying⟩ := hq.copying hpc
  have hwr : (s.queue.cmd i).req.write = true := by
    by_cases hold : i < base
    · rcases h.writes.old i hcopying.lt hold with hs | ⟨-, hs⟩
      · rw [hcopying.posted] at hs
        cases hs
      · exact hs
    · exact (h.writes.job i hcopying.lt (by omega)).write
  rw [hcopying.write hwr]
  refine ⟨⟨h.writes, hasked, fun a => ?_⟩, rfl⟩
  refine (h.pending a).imp_right ?_
  rintro ⟨r, hr, ht⟩
  refine ⟨r, hr.congr ?_ rfl rfl, ht⟩
  intro r' hr'
  rw [hpc] at hr'
  exact hr'

theorem WritePhase.mark (h : WritePhase c A Y base s) (hq : QueueInv c s.queue) {back : Option Request}
    {cid : ℕ} (hpc : s.queue.pc = .mark back cid) :
    WritePhase c A Y base { s with queue := mark c back cid s.queue } := by
  have hasked := h.asked
  rw [hpc] at hasked
  obtain ⟨i, -, hgetD, -, -, hposted⟩ := hq.marking hpc
  refine ⟨h.writes.setStage (.inr rfl) (by simp) fun _ _ hw => hw.elim, hasked, fun a => ?_⟩
  refine (h.pending a).imp_right ?_
  rintro ⟨r, hr, ht⟩
  refine ⟨r, hr.setStage ?_ rfl rfl ?_, ht⟩
  · intro r' hr'
    rw [hpc] at hr'
    exact hr'
  · rw [hgetD, hposted]
    exact id

theorem WritePhase.host (h : WritePhase c A Y base s) (hq : QueueInv c s.queue) (hc : c.Valid) :
    WritePhase c A Y base (hostStep c s) ∧ (hostStep c s).disk = s.disk ∧
      (hostStep c s).user = s.user := by
  unfold hostStep
  cases hpc : s.queue.pc with
  | idle => exact ⟨h, rfl, rfl⟩
  | newSqe r => exact ⟨h.newSqe hpc, rfl, rfl⟩
  | fill r cid => exact ⟨h.fill hq hc hpc, rfl, rfl⟩
  | doorbell r cid => exact ⟨h.doorbell hq hpc, rfl, rfl⟩
  | checkCq back => exact ⟨h.testPhase hpc, rfl, rfl⟩
  | copy back cid =>
    obtain ⟨hphase, huser⟩ := h.copyOut hq hpc
    refine ⟨hphase, ?_, huser⟩
    simp only [Nvme.copyOut]
    split_ifs <;> rfl
  | mark back cid => exact ⟨h.mark hq hpc, rfl, rfl⟩

/-- The drive writes what the command is for. -/
theorem WritePhase.exec (h : WritePhase c A Y base s) (hq : QueueInv c s.queue) (hc : c.Valid)
    (ha : c.Addressed) {i : ℕ} (hi : i < s.queue.issued) (hs : (s.queue.cmd i).stage = .submitted) :
    WritePhase c A Y base (exec i s) ∧ (exec i s).user = s.user := by
  have hb := h.writes.base_le_of hi (by rw [hs]; simp) (by rw [hs]; simp)
  have hjob := h.writes.job i hi hb
  have hready := h.writes.ready i hi hb (by rw [hs]; trivial)
  rw [hq.exec_write hc ha hi hs hjob.write hjob.whole]
  refine ⟨⟨h.writes.setStage (.inl hb) (by simp) fun _ _ hw => hw.elim, h.asked, fun a => ?_⟩, rfl⟩
  by_cases hin : (s.queue.cmd i).req.Targets c a
  · obtain ⟨hle, hlt⟩ := hin
    obtain ⟨k, rfl⟩ := Nat.exists_eq_add_of_le hle
    left
    change blit s.disk s.queue.dma _ _ _ _ = _
    rw [blit_at _ _ (by omega)]
    exact hready k (by omega)
  · have hout : blit s.disk s.queue.dma ((s.queue.cmd i).req.start c)
        (c.buf4kPa (s.queue.cmd i).cid) ((s.queue.cmd i).req.numBlk * 512) a = s.disk a :=
      blit_outside _ _ (by unfold Request.Targets at hin; omega)
    change blit s.disk s.queue.dma _ _ _ _ = _ ∨ _
    rw [hout]
    refine (h.pending a).imp_right ?_
    rintro ⟨r, hr, ht⟩
    refine ⟨r, ?_, ht⟩
    cases hr with
    | asked hr => exact .asked hr
    | @cmd k hk hkb hks =>
      have hki : k ≠ i := by
        rintro rfl
        exact hin ht
      have hcmd : setStage s.queue.cmd i (.executed (sqeOf c (s.queue.cmd i))) k = s.queue.cmd k :=
        setStage_of_ne _ _ hki
      rw [← hcmd] at hks ⊢
      exact .cmd hk hkb hks

theorem WritePhase.post (h : WritePhase c A Y base s) {i : ℕ} (hi : i < s.queue.issued) {e : Sqe}
    (hs : (s.queue.cmd i).stage = .executed e) (x : Cqe) :
    WritePhase c A Y base { s with queue := post c i e x s.queue } := by
  have hb := h.writes.base_le_of hi (by rw [hs]; simp) (by rw [hs]; simp)
  refine ⟨h.writes.setStage (.inl hb) (by simp) fun _ _ hw => hw.elim, h.asked, fun a => ?_⟩
  refine (h.pending a).imp_right ?_
  rintro ⟨r, hr, ht⟩
  refine ⟨r, hr.setStage (fun _ => id) rfl rfl ?_, ht⟩
  rw [hs]
  exact id

/-- Ranges of which one lies in `A` and the other outside do not meet. -/
theorem apart_of_within {d n e m : ℕ} (hn : 0 < n) (hm : 0 < m)
    (hin : ∀ a, d ≤ a ∧ a < d + n → A a) (hout : ∀ a, e ≤ a ∧ a < e + m → ¬ A a) : Apart d n e m := by
  by_contra h
  unfold Apart at h
  exact hout (max d e) (by omega) (hin (max d e) (by omega))

/-- A new request for bytes outside `A`: the drive will hold there what its buffer holds. -/
theorem WritePhase.request (h : WritePhase c A Y base s) (hpc : s.queue.pc = .idle) {B : ℕ → Prop}
    (hAB : ∀ a, A a → B a) {r : Request} (hjob : WriteJob c B r)
    (hout : ∀ a, r.Targets c a → ¬ A a) :
    WritePhase c B (blit Y s.user (r.start c) r.buf r.len) base ((QueueStep.request r).step c s) := by
  have hfull := hjob.full
  have hpos := hjob.whole.pos
  have hapart : ∀ r', WriteJob c A r' → Apart (r'.start c) (r'.numBlk * 512) (r.start c) r.len := by
    intro r' hr'
    have hpos' := hr'.whole.pos
    refine apart_of_within (by omega) (by omega) hr'.within fun a ha => hout a ?_
    rw [hfull] at ha
    exact ha
  refine ⟨⟨h.writes.base_le, h.writes.old, fun i hi hb => (h.writes.job i hi hb).mono hAB,
    fun i hi hb hs => ?_, fun i hi hb hs => ?_⟩, fun r' hr => ?_, fun a => ?_⟩
  · have hp := hapart _ (h.writes.job i hi hb)
    rw [← (h.writes.job i hi hb).full] at hp
    exact fun k hk => (h.writes.source i hi hb hs k hk).trans (agree_blit Y s.user hp k hk).symm
  · exact (h.writes.ready i hi hb hs).blit_right s.user (hapart _ (h.writes.job i hi hb))
  · cases hr
    exact ⟨hjob, fun k hk => (blit_at Y s.user hk).symm⟩
  · by_cases hin : r.Targets c a
    · exact .inr ⟨r, .asked rfl, hin⟩
    · have hsame : blit Y s.user (r.start c) r.buf r.len a = Y a :=
        blit_outside _ _ (by unfold Request.Targets at hin; omega)
      rw [hsame]
      refine (h.pending a).imp_right ?_
      rintro ⟨r', hr', ht⟩
      refine ⟨r', hr'.congr ?_ rfl rfl, ht⟩
      intro r'' hr''
      rw [hpc] at hr''
      cases hr''

/-- Any other step of the queue. -/
theorem WritePhase.step (h : WritePhase c A Y base s) (hq : QueueInv c s.queue) (hc : c.Valid)
    (ha : c.Addressed) {o : QueueStep} (hA : o.Admissible s.queue) (ho : ∀ r, o ≠ .request r) :
    WritePhase c A Y base (o.step c s) ∧ (o.step c s).user = s.user := by
  cases o with
  | request r => exact absurd rfl (ho r)
  | call =>
    refine ⟨⟨h.writes, (fun r' hr => by cases hr), fun a => ?_⟩, rfl⟩
    refine (h.pending a).imp_right ?_
    rintro ⟨r', hr', ht⟩
    refine ⟨r', hr'.congr ?_ rfl rfl, ht⟩
    intro r'' hr''
    rw [show s.queue.pc = .idle from hA] at hr''
    cases hr''
  | host => exact ⟨(h.host hq hc).1, (h.host hq hc).2.2⟩
  | exec i => exact h.exec hq hc ha hA.1 hA.2
  | post i x =>
    obtain ⟨hi, e, hs⟩ := hA
    have hstep : (QueueStep.post i x).step c s = { s with queue := Nvme.post c i e x s.queue } := by
      simp only [QueueStep.step, hs]
    rw [hstep]
    exact ⟨h.post hi hs x, rfl⟩

end WritePhase

end Pthabt.Nvme
