import Pthabt.Nvme.SharedQueue

/-! Queues in which one ULT writes while others read. `Y` is what a drive will hold when it has executed
the writes. Nobody else changes the memory that they are from, and reads change no drive. -/

namespace Pthabt.Nvme

open Lib Bytes

/-- A write of the bytes `A` of the drive, from memory that nobody else changes. -/
structure Sends (c : QpConfig) (own A : ℕ → Prop) (r : Request) : Prop where
  job : WriteJob c A r
  own : ∀ k < r.len, own (r.buf + k)

/-- A read of another ULT. -/
structure Bystander (own : ℕ → Prop) (r : Request) : Prop where
  read : r.write = false
  whole : r.Whole
  apart : ∀ k < r.len, ¬ own (r.buf + k)

/-- Nobody else changes the memory `own`. -/
def OwnKept (own : ℕ → Prop) (user user' : ℕ → Byte) : Prop := ∀ a, own a → user' a = user a

/-- The commands of a queue; the writer's are among those from `base` on. -/
structure WriterTraffic (c : QpConfig) (own A : ℕ → Prop) (Y user : ℕ → Byte) (base : ℕ) (cmd : ℕ → Cmd)
    (issued : ℕ) (dma : ℕ → Byte) : Prop where
  base_le : base ≤ issued
  known : ∀ i < issued, (cmd i).stage ≠ .consumed → Bystander own (cmd i).req ∨
    (base ≤ i ∧ Sends c own A (cmd i).req) ∨ (cmd i).Landed
  source : ∀ i < issued, (cmd i).stage = .claimed → (cmd i).req.write = true →
    Sourced c Y user (cmd i).req
  ready : ∀ i < issued, (cmd i).stage.Written → (cmd i).req.write = true →
    Agree dma (c.buf4kPa (cmd i).cid) Y ((cmd i).req.start c) ((cmd i).req.numBlk * 512)

/-- A queue in which the writer's commands are among others'. -/
structure WriterQueue (c : QpConfig) (own A : ℕ → Prop) (Y : ℕ → Byte) (base : ℕ) (s : Port) : Prop where
  traffic : WriterTraffic c own A Y s.user base s.queue.cmd s.queue.issued s.queue.dma
  asked : ∀ r, s.queue.pc.asked = some r →
    Bystander own r ∨ (Sends c own A r ∧ Sourced c Y s.user r)

/-- What a step of a queue does: the drive changes towards `Y` only, a write that is no longer
pending has been executed, and the writer's memory stays. -/
structure TowardDisk (c : QpConfig) (own : ℕ → Prop) (Y : ℕ → Byte) (base : ℕ) (s s' : Port) : Prop where
  disk : ∀ a, s'.disk a = s.disk a ∨ s'.disk a = Y a
  pending : ∀ r, Pending base s.queue r → r.write = true →
    Pending base s'.queue r ∨ ∀ a, r.Targets c a → s'.disk a = Y a
  user : OwnKept own s.user s'.user

section Traffic

variable {c : QpConfig} {own A B : ℕ → Prop} {Y user user' dma : ℕ → Byte} {base issued : ℕ} {cmd : ℕ → Cmd}

theorem Foreign.bystander {v : Reserve} {did : ℕ} {r : Request} (h : Foreign c v did r)
    (hkept : ∀ a, v.kept did a) : Bystander v.own r := by
  have hread : r.write = false := by
    cases hw : r.write with
    | false => rfl
    | true =>
      have hpos := h.whole.pos
      exact absurd (hkept _) (h.write hw (r.start c) ⟨le_rfl, by omega⟩)
  exact ⟨hread, h.whole, h.read hread⟩

theorem Sends.mono {r : Request} (h : Sends c own A r) (hAB : ∀ a, A a → B a) : Sends c own B r :=
  ⟨h.job.mono hAB, h.own⟩

theorem Sourced.of_kept {r : Request} (h : Sourced c Y user r) (hown : ∀ k < r.len, own (r.buf + k))
    (hu : OwnKept own user user') : Sourced c Y user' r :=
  fun k hk => (hu _ (hown k hk)).trans (h k hk)

theorem Stage.Moved.not_unmoved {st : Stage} (h : st.Moved) : ¬ st.Unmoved := by
  cases st with
  | executed e => exact id
  | posted => exact id
  | _ => exact h.elim

/-- A write that the drive has not executed is the writer's. -/
theorem WriterTraffic.sends (h : WriterTraffic c own A Y user base cmd issued dma) {i : ℕ}
    (hi : i < issued) (hs : (cmd i).stage.Unmoved) (hw : (cmd i).req.write = true) :
    base ≤ i ∧ Sends c own A (cmd i).req := by
  have hne : (cmd i).stage ≠ .consumed := by
    intro hc
    rw [hc] at hs
    exact hs
  rcases h.known i hi hne with hb | hr | ⟨-, hm⟩
  · rw [hb.read] at hw
    cases hw
  · exact hr
  · exact absurd hs hm.not_unmoved

/-- Memory of the others changes. -/
theorem WriterTraffic.of_kept (h : WriterTraffic c own A Y user base cmd issued dma)
    (hu : OwnKept own user user') : WriterTraffic c own A Y user' base cmd issued dma :=
  ⟨h.base_le, h.known, fun i hi hs hw =>
    (h.source i hi hs hw).of_kept (h.sends hi (by rw [hs]; trivial) hw).2.own hu, h.ready⟩

theorem WriterTraffic.claim (h : WriterTraffic c own A Y user base cmd issued dma) {r : Request}
    (hr : Bystander own r ∨ (Sends c own A r ∧ Sourced c Y user r)) (cid : ℕ) :
    WriterTraffic c own A Y user base (Function.update cmd issued ⟨r, cid, .claimed⟩) (issued + 1) dma := by
  refine ⟨Nat.le_succ_of_le h.base_le, ?_, ?_, ?_⟩
  · exact forall_claim (P := fun i x => x.stage ≠ .consumed → Bystander own x.req ∨
      (base ≤ i ∧ Sends c own A x.req) ∨ x.Landed) h.known
      fun _ => hr.imp_right fun hr => .inl ⟨h.base_le, hr.1⟩
  · refine forall_claim (P := fun _ x => x.stage = .claimed → x.req.write = true →
      Sourced c Y user x.req) h.source fun _ hw => ?_
    rcases hr with hr | hr
    · rw [hr.read] at hw
      cases hw
    · exact hr.2
  · exact forall_claim (P := fun _ x => x.stage.Written → x.req.write = true →
      Agree dma (c.buf4kPa x.cid) Y (x.req.start c) (x.req.numBlk * 512)) h.ready fun hw => hw.elim

/-- A command at a later stage. -/
theorem WriterTraffic.setStage (h : WriterTraffic c own A Y user base cmd issued dma) {i : ℕ} {st : Stage}
    (hc : (cmd i).stage = .consumed → st = .consumed) (hnew : st ≠ .claimed)
    (hl : (cmd i).stage.Moved → st.Moved ∨ st = .consumed)
    (hw : i < issued → st.Written → (cmd i).req.write = true →
      Agree dma (c.buf4kPa (cmd i).cid) Y ((cmd i).req.start c) ((cmd i).req.numBlk * 512)) :
    WriterTraffic c own A Y user base (setStage cmd i st) issued dma := by
  refine ⟨h.base_le, fun k hk hs => ?_, fun k hk hs hwr => ?_, fun k hk hs hwr => ?_⟩
  · by_cases he : k = i
    · subst he
      rw [setStage_self] at hs
      rw [setStage_req]
      refine (h.known k hk fun hcons => hs (hc hcons)).imp_right (Or.imp_right ?_)
      rintro ⟨hwrite, hmoved⟩
      refine ⟨(congrArg Request.write (setStage_req cmd k st k)).trans hwrite, ?_⟩
      rw [setStage_self]
      exact (hl hmoved).resolve_right hs
    · rw [setStage_of_ne _ _ he] at hs ⊢
      exact h.known k hk hs
  · rw [setStage_req] at hwr ⊢
    by_cases he : k = i
    · subst he
      rw [setStage_self] at hs
      exact absurd hs hnew
    · rw [setStage_of_ne _ _ he] at hs
      exact h.source k hk hs hwr
  · rw [setStage_req] at hwr
    rw [setStage_cid, setStage_req]
    by_cases he : k = i
    · subst he
      rw [setStage_self] at hs
      exact hw hk hs hwr
    · rw [setStage_of_ne _ _ he] at hs
      exact h.ready k hk hs hwr

/-- A copy to a DMA buffer that no written write uses. -/
theorem WriterTraffic.blit (h : WriterTraffic c own A Y user base cmd issued dma) (src : ℕ → Byte)
    {d t n : ℕ} (hapart : ∀ k < issued, (cmd k).stage.Written → (cmd k).req.write = true →
      Apart (c.buf4kPa (cmd k).cid) ((cmd k).req.numBlk * 512) d n) :
    WriterTraffic c own A Y user base cmd issued (blit dma src d t n) :=
  ⟨h.base_le, h.known, h.source,
    fun k hk hs hw => (h.ready k hk hs hw).blit_left src (hapart k hk hs hw)⟩

/-- More bytes are written, and `Y` stays for those before. -/
theorem WriterTraffic.extend (h : WriterTraffic c own A Y user base cmd issued dma) {Y' : ℕ → Byte}
    (hAB : ∀ a, A a → B a) (hY : ∀ a, A a → Y' a = Y a) :
    WriterTraffic c own B Y' user base cmd issued dma := by
  refine ⟨h.base_le, fun i hi hs => (h.known i hi hs).imp_right
    (Or.imp_left fun hr => ⟨hr.1, hr.2.mono hAB⟩), fun i hi hs hw k hk => ?_, fun i hi hs hw k hk => ?_⟩
  · have hjob := (h.sends hi (by rw [hs]; trivial) hw).2.job
    have hfull := hjob.full
    rw [hY _ (hjob.within _ ⟨by omega, by omega⟩)]
    exact h.source i hi hs hw k hk
  · have hjob := (h.sends hi hs.unmoved hw).2.job
    rw [hY _ (hjob.within _ ⟨by omega, by omega⟩)]
    exact h.ready i hi hs hw k hk

end Traffic

section Queue

variable {c : QpConfig} {own A B : ℕ → Prop} {Y : ℕ → Byte} {base : ℕ} {s s' : Port}

/-! ### Writes that are still to be executed -/

theorem Pending.of_cmd {q : Queue} {r : Request} {i : ℕ} (hi : i < q.issued) (hb : base ≤ i)
    (hs : (q.cmd i).stage.Unmoved) (hr : (q.cmd i).req = r) : Pending base q r := hr ▸ .cmd hi hb hs

theorem Pending.newSqe {q : Queue} {r r' : Request} (h : Pending base q r) (hb : base ≤ q.issued)
    (hpc : q.pc = .newSqe r') : Pending base (Nvme.newSqe c r' q) r := by
  unfold Nvme.newSqe
  split_ifs with hf
  · exact h.congr (fun r'' hr => by rwa [hpc] at hr) rfl rfl
  · cases h with
    | asked hr =>
      rw [hpc] at hr
      obtain rfl : r' = r := Option.some.inj hr
      have hself : Function.update q.cmd q.issued ⟨r', q.sqTail, .claimed⟩ q.issued =
          ⟨r', q.sqTail, .claimed⟩ := Function.update_self ..
      refine .of_cmd (Nat.lt_succ_self q.issued) hb ?_ ?_
      · dsimp only
        rw [hself]
        trivial
      · dsimp only
        rw [hself]
    | @cmd k hk hkb hs =>
      have hne : Function.update q.cmd q.issued ⟨r', q.sqTail, .claimed⟩ k = q.cmd k :=
        Function.update_of_ne hk.ne ..
      refine .of_cmd (Nat.lt_succ_of_lt hk) hkb ?_ ?_
      · dsimp only
        rw [hne]
        exact hs
      · dsimp only
        rw [hne]

/-- A command changes its stage, and another one that was to be executed still is. -/
theorem Pending.or_eq {q q' : Queue} {r : Request} (h : Pending base q r) {i : ℕ} {st : Stage}
    (hpc : q'.pc = q.pc) (hissued : q'.issued = q.issued) (hcmd : q'.cmd = Nvme.setStage q.cmd i st) :
    Pending base q' r ∨ r = (q.cmd i).req := by
  cases h with
  | asked hr => exact .inl (.asked (hpc.symm ▸ hr))
  | @cmd k hk hkb hs =>
    by_cases he : k = i
    · exact .inr (by rw [he])
    · have hne : q'.cmd k = q.cmd k := by rw [hcmd, setStage_of_ne _ _ he]
      exact .inl (.of_cmd (hissued.symm ▸ hk) hkb (by rwa [hne]) (by rw [hne]))

theorem Pending.exec {r : Request} (h : Pending base s.queue r) (i : ℕ) :
    Pending base (Nvme.exec i s).queue r ∨ r = (s.queue.cmd i).req :=
  h.or_eq (exec_pc i s) (exec_issued i s) (exec_cmd i s)

theorem Pending.request {r r' : Request} (h : Pending base s.queue r) (hpc : s.queue.pc = .idle) :
    Pending base ((QueueStep.request r').step c s).queue r := by
  refine h.congr ?_ rfl rfl
  rw [hpc]
  exact fun _ h => by cases h

/-- No step of the host executes a command. -/
theorem QueueInv.pending_host (hq : QueueInv c s.queue) (hb : base ≤ s.queue.issued) {r : Request}
    (h : Pending base s.queue r) : Pending base (hostStep c s).queue r := by
  have hasked : ∀ pc, s.queue.pc = pc → ∀ pc' : HostPc, pc.asked = pc'.asked →
      ∀ r, s.queue.pc.asked = some r → pc'.asked = some r := by
    rintro pc rfl pc' he r hr
    exact he ▸ hr
  unfold hostStep
  cases hpc : s.queue.pc with
  | idle => exact h
  | newSqe r' => exact h.newSqe hb hpc
  | fill r' cid => exact h.setStage (hasked _ hpc _ rfl) rfl rfl fun _ => trivial
  | doorbell r' cid => exact h.setStage (hasked _ hpc _ rfl) rfl rfl fun _ => trivial
  | checkCq back =>
    dsimp only
    unfold Nvme.testPhase
    split_ifs
    · exact h.congr (hasked _ hpc _ (by cases back <;> rfl)) rfl rfl
    · exact h.congr (hasked _ hpc _ (by cases back <;> rfl)) rfl rfl
  | copy back cid =>
    dsimp only
    unfold Nvme.copyOut
    dsimp only
    split_ifs <;> exact h.congr (hasked _ hpc _ (by cases back <;> rfl)) rfl rfl
  | mark back cid =>
    obtain ⟨i, -, hgetD, -, -, hposted⟩ := hq.marking hpc
    refine h.setStage (hasked _ hpc _ (by cases back <;> rfl)) rfl rfl ?_
    rw [hgetD, hposted]
    exact id

theorem host_disk (c : QpConfig) (s : Port) : (hostStep c s).disk = s.disk := by
  unfold hostStep
  cases s.queue.pc with
  | copy back cid =>
    dsimp only
    unfold Nvme.copyOut
    dsimp only
    split_ifs <;> rfl
  | _ => rfl

/-! ### The steps of a queue -/

theorem OwnKept.refl (own : ℕ → Prop) (user : ℕ → Byte) : OwnKept own user user := fun _ _ => rfl

/-- A step that executes nothing. -/
theorem TowardDisk.of_pending (hd : s'.disk = s.disk) (hu : OwnKept own s.user s'.user)
    (hp : ∀ r, Pending base s.queue r → Pending base s'.queue r) : TowardDisk c own Y base s s' :=
  ⟨fun a => .inl (by rw [hd]), fun r hr _ => .inl (hp r hr), hu⟩

theorem WriterQueue.newSqe (h : WriterQueue c own A Y base s) {r : Request}
    (hpc : s.queue.pc = .newSqe r) :
    WriterQueue c own A Y base { s with queue := newSqe c r s.queue } := by
  have hr := h.asked r (by rw [hpc]; rfl)
  unfold Nvme.newSqe
  split_ifs
  · exact ⟨h.traffic, fun r' hr' => by cases hr'; exact hr⟩
  · exact ⟨h.traffic.claim hr _, fun _ h => by cases h⟩

/-- The last command, before its doorbell is rung. -/
theorem QueueInv.last (hq : QueueInv c s.queue) {r : Request} {cid : ℕ} {st : Stage}
    (hi : s.queue.issued - 1 < s.queue.issued) (hlast : s.queue.cmd (s.queue.issued - 1) = ⟨r, cid, st⟩)
    (hs : st ≠ .consumed) {k : ℕ} (hk : k < s.queue.issued) (hw : (s.queue.cmd k).stage.Written)
    (hne : ¬ st.Written) : (s.queue.cmd k).cid ≠ cid := by
  intro he
  have hki := hq.slots.distinct k hk (s.queue.issued - 1) hi hw.wired.not_consumed
    (by rw [hlast]; exact hs) (by rw [hlast]; exact he)
  rw [hki, hlast] at hw
  exact hne hw

theorem WriterQueue.fill (h : WriterQueue c own A Y base s) (hq : QueueInv c s.queue) (hc : c.Valid)
    {r : Request} {cid : ℕ} (hpc : s.queue.pc = .fill r cid) :
    WriterQueue c own A Y base (Nvme.fill c r cid s) := by
  obtain ⟨hi, hlast⟩ := hq.filling hpc
  have hne := fun k hk hw => hq.last hi hlast (by simp) (k := k) hk hw id
  have hcid := hq.slots.cid_lt _ hi
  rw [hlast] at hcid
  have hmoved : (s.queue.cmd (s.queue.issued - 1)).stage.Moved →
      Stage.filled.Moved ∨ Stage.filled = .consumed := by
    rw [hlast]
    exact False.elim
  have hcons : (s.queue.cmd (s.queue.issued - 1)).stage = .consumed → Stage.filled = .consumed := by
    rw [hlast]
    simp
  cases hwr : r.write with
  | false =>
    simp only [Nvme.fill, hwr, Bool.false_eq_true, if_false]
    refine ⟨h.traffic.setStage hcons (by simp) hmoved fun _ _ hw => ?_, fun _ h => by cases h⟩
    rw [hlast] at hw
    exact absurd (hwr.symm.trans hw) Bool.false_ne_true
  | true =>
    have hmine := (h.traffic.sends hi (by rw [hlast]; trivial) (by rw [hlast]; exact hwr)).2.job
    have hsource := h.traffic.source _ hi (by rw [hlast]) (by rw [hlast]; exact hwr)
    rw [hlast] at hmine hsource
    have hfull : r.len = r.numBlk * 512 := hmine.full
    have hle : r.numBlk * 512 ≤ blksz := hmine.whole.le
    simp only [Nvme.fill, hwr, if_true]
    refine ⟨(h.traffic.blit _ fun k hk hw hwk => ?_).setStage hcons (by simp) hmoved fun _ _ _ => ?_,
      fun _ h => by cases h⟩
    · have hjob := (h.traffic.sends hk hw.unmoved hwk).2.job
      exact (buf4k_apart hc (hq.slots.cid_lt k hk) hcid (hne k hk hw)).mono hjob.whole.le (by omega)
    · rw [hlast]
      intro k hk
      have hk : k < r.len := hfull.symm ▸ hk
      exact (blit_at _ _ hk).trans (hsource k hk)

theorem WriterQueue.doorbell (h : WriterQueue c own A Y base s) (hq : QueueInv c s.queue) {r : Request}
    {cid : ℕ} (hpc : s.queue.pc = .doorbell r cid) :
    WriterQueue c own A Y base { s with queue := doorbell s.queue } := by
  obtain ⟨-, hlast⟩ := hq.ringing hpc
  refine ⟨h.traffic.setStage ?_ (by simp) ?_ fun hi _ hw => h.traffic.ready _ hi ?_ hw, fun _ h => by cases h⟩
  · rw [hlast]
    simp
  · rw [hlast]
    exact False.elim
  · rw [hlast]
    trivial

theorem WriterQueue.testPhase (h : WriterQueue c own A Y base s) {back : Option Request}
    (hpc : s.queue.pc = .checkCq back) :
    WriterQueue c own A Y base { s with queue := testPhase back s.queue } := by
  have hasked := h.asked
  rw [hpc] at hasked
  unfold Nvme.testPhase
  split_ifs
  · exact ⟨h.traffic, hasked⟩
  · cases back with
    | none => exact ⟨h.traffic, fun _ h => by cases h⟩
    | some r => exact ⟨h.traffic, hasked⟩

/-- A completion of another ULT's read is not copied to the writer's memory, and one of a write is
not copied at all. -/
theorem WriterTraffic.copyOut (h : WriterTraffic c own A Y s.user base s.queue.cmd s.queue.issued s.queue.dma)
    (hq : QueueInv c s.queue) {back : Option Request} {cid : ℕ} (hpc : s.queue.pc = .copy back cid) :
    OwnKept own s.user (Nvme.copyOut c back cid s).user := by
  obtain ⟨i, hcopying⟩ := hq.copying hpc
  cases hwr : (s.queue.cmd i).req.write with
  | true =>
    rw [hcopying.write hwr]
    exact .refl own _
  | false =>
    rw [hcopying.read hwr]
    intro a ha
    refine blit_outside _ _ ?_
    by_contra hin
    obtain ⟨k, rfl⟩ := Nat.exists_eq_add_of_le (show (s.queue.cmd i).req.buf ≤ a by omega)
    rcases h.known i hcopying.lt (by rw [hcopying.posted]; simp) with hb | ⟨-, hr⟩ | ⟨hw, -⟩
    · exact hb.apart k (by omega) ha
    · exact absurd (hwr.symm.trans hr.job.write) Bool.false_ne_true
    · exact absurd (hwr.symm.trans hw) Bool.false_ne_true

theorem WriterQueue.copyOut (h : WriterQueue c own A Y base s) (hq : QueueInv c s.queue)
    {back : Option Request} {cid : ℕ} (hpc : s.queue.pc = .copy back cid) :
    WriterQueue c own A Y base (Nvme.copyOut c back cid s) ∧
      OwnKept own s.user (Nvme.copyOut c back cid s).user := by
  have hu := h.traffic.copyOut hq hpc
  have htraffic := h.traffic.of_kept hu
  have hasked : ∀ r, s.queue.pc.asked = some r →
      Bystander own r ∨ (Sends c own A r ∧ Sourced c Y (Nvme.copyOut c back cid s).user r) :=
    fun r hr => (h.asked r hr).imp_right fun hr => ⟨hr.1, hr.2.of_kept hr.1.own hu⟩
  rw [hpc] at hasked
  unfold Nvme.copyOut at hu htraffic hasked ⊢
  dsimp only at hu htraffic hasked ⊢
  split_ifs at hu htraffic hasked ⊢
  · exact ⟨⟨htraffic, hasked⟩, hu⟩
  · exact ⟨⟨htraffic, hasked⟩, hu⟩

theorem WriterQueue.mark (h : WriterQueue c own A Y base s) {back : Option Request} {cid : ℕ}
    (hpc : s.queue.pc = .mark back cid) :
    WriterQueue c own A Y base { s with queue := mark c back cid s.queue } := by
  have hasked := h.asked
  rw [hpc] at hasked
  exact ⟨h.traffic.setStage (fun _ => rfl) (by simp) (fun _ => .inr rfl) fun _ => False.elim, hasked⟩

theorem WriterQueue.host (h : WriterQueue c own A Y base s) (hq : QueueInv c s.queue) (hc : c.Valid) :
    WriterQueue c own A Y base (hostStep c s) ∧ TowardDisk c own Y base s (hostStep c s) := by
  have hboth : WriterQueue c own A Y base (hostStep c s) ∧ OwnKept own s.user (hostStep c s).user := by
    unfold hostStep
    cases hpc : s.queue.pc with
    | idle => exact ⟨h, .refl own _⟩
    | newSqe r => exact ⟨h.newSqe hpc, .refl own _⟩
    | fill r cid => exact ⟨h.fill hq hc hpc, .refl own _⟩
    | doorbell r cid => exact ⟨h.doorbell hq hpc, .refl own _⟩
    | checkCq back => exact ⟨h.testPhase hpc, .refl own _⟩
    | copy back cid => exact h.copyOut hq hpc
    | mark back cid => exact ⟨h.mark hpc, .refl own _⟩
  exact ⟨hboth.1, .of_pending (host_disk c s) hboth.2 fun _ => hq.pending_host h.traffic.base_le⟩

/-- A submitted command as an executed one. -/
theorem WriterTraffic.executed {user dma : ℕ → Byte} {cmd : ℕ → Cmd} {issued i : ℕ}
    (h : WriterTraffic c own A Y user base cmd issued dma) (hs : (cmd i).stage = .submitted) (e : Sqe) :
    WriterTraffic c own A Y user base (Nvme.setStage cmd i (.executed e)) issued dma := by
  refine h.setStage ?_ (by simp) ?_ fun _ => False.elim
  · rw [hs]
    simp
  · rw [hs]
    exact False.elim

/-- The drive executes another ULT's read. -/
theorem WriterQueue.exec_read (h : WriterQueue c own A Y base s) (hq : QueueInv c s.queue)
    (hc : c.Valid) (ha : c.Addressed) {i : ℕ} (hi : i < s.queue.issued)
    (hs : (s.queue.cmd i).stage = .submitted) (hb : Bystander own (s.queue.cmd i).req) :
    WriterQueue c own A Y base (Nvme.exec i s) ∧ TowardDisk c own Y base s (Nvme.exec i s) := by
  have hpending : ∀ r, Pending base s.queue r → r.write = true →
      Pending base (Nvme.exec i s).queue r := by
    intro r hr hw
    refine (hr.exec i).resolve_right fun he => ?_
    rw [he, hb.read] at hw
    cases hw
  rw [hq.exec_read hc ha hi hs hb.read hb.whole] at hpending ⊢
  refine ⟨⟨(h.traffic.blit _ fun k hk hw hwr => ?_).executed hs _, h.asked⟩,
    fun a => .inl rfl, fun r hr hw => .inl (hpending r hr hw), .refl own _⟩
  have hne : (s.queue.cmd k).cid ≠ (s.queue.cmd i).cid := by
    intro he
    have hki := hq.slots.distinct k hk i hi hw.wired.not_consumed (by rw [hs]; simp) he
    rw [hki, hb.read] at hwr
    cases hwr
  have hjob := (h.traffic.sends hk hw.unmoved hwr).2.job
  exact (buf4k_apart hc (hq.slots.cid_lt k hk) (hq.slots.cid_lt i hi) hne).mono hjob.whole.le
    hb.whole.le

/-- The drive executes a write of the writer. -/
theorem WriterQueue.exec_write (h : WriterQueue c own A Y base s) (hq : QueueInv c s.queue)
    (hc : c.Valid) (ha : c.Addressed) {i : ℕ} (hi : i < s.queue.issued)
    (hs : (s.queue.cmd i).stage = .submitted) (hr : Sends c own A (s.queue.cmd i).req) :
    WriterQueue c own A Y base (Nvme.exec i s) ∧ TowardDisk c own Y base s (Nvme.exec i s) := by
  have hready := h.traffic.ready i hi (by rw [hs]; trivial) hr.job.write
  have htarget : ∀ a, (s.queue.cmd i).req.Targets c a → blit s.disk s.queue.dma
      ((s.queue.cmd i).req.start c) (c.buf4kPa (s.queue.cmd i).cid) ((s.queue.cmd i).req.numBlk * 512) a =
        Y a := by
    rintro a ⟨hle, hlt⟩
    obtain ⟨k, rfl⟩ := Nat.exists_eq_add_of_le hle
    have hk : k < (s.queue.cmd i).req.numBlk * 512 := by omega
    exact (blit_at _ _ hk).trans (hready k hk)
  have hpending : ∀ r, Pending base s.queue r →
      Pending base (Nvme.exec i s).queue r ∨ r = (s.queue.cmd i).req := fun _ hp => hp.exec i
  rw [hq.exec_write hc ha hi hs hr.job.write hr.job.whole] at hpending ⊢
  refine ⟨⟨h.traffic.executed hs _, h.asked⟩, fun a => ?_, fun r hp _ => ?_, .refl own _⟩
  · by_cases hin : (s.queue.cmd i).req.Targets c a
    · exact .inr (htarget a hin)
    · exact .inl (blit_outside _ _ (by unfold Request.Targets at hin; omega))
  · refine (hpending r hp).imp_right fun he a ht => ?_
    rw [he] at ht
    exact htarget a ht

theorem WriterQueue.exec (h : WriterQueue c own A Y base s) (hq : QueueInv c s.queue)
    (hc : c.Valid) (ha : c.Addressed) {i : ℕ} (hi : i < s.queue.issued)
    (hs : (s.queue.cmd i).stage = .submitted) :
    WriterQueue c own A Y base (Nvme.exec i s) ∧ TowardDisk c own Y base s (Nvme.exec i s) := by
  rcases h.traffic.known i hi (by rw [hs]; simp) with hb | ⟨-, hr⟩ | ⟨-, hm⟩
  · exact h.exec_read hq hc ha hi hs hb
  · exact h.exec_write hq hc ha hi hs hr
  · rw [hs] at hm
    exact hm.elim

theorem WriterQueue.post (h : WriterQueue c own A Y base s) {i : ℕ} {e : Sqe}
    (hs : (s.queue.cmd i).stage = .executed e) (x : Cqe) :
    WriterQueue c own A Y base { s with queue := post c i e x s.queue } ∧
      TowardDisk c own Y base s { s with queue := post c i e x s.queue } := by
  refine ⟨⟨h.traffic.setStage ?_ (by simp) (fun _ => .inl trivial) fun _ => False.elim, h.asked⟩,
    .of_pending rfl (.refl own _) fun r hr => hr.setStage (fun _ => id) rfl rfl ?_⟩
  · rw [hs]
    simp
  · rw [hs]
    exact id

/-- Any step of the queue that is not a request of the writer. -/
theorem WriterQueue.step (h : WriterQueue c own A Y base s) (hq : QueueInv c s.queue) (hc : c.Valid)
    (ha : c.Addressed) {o : QueueStep} (hA : o.Admissible s.queue)
    (hr : ∀ r, o = .request r → Bystander own r) :
    WriterQueue c own A Y base (o.step c s) ∧ TowardDisk c own Y base s (o.step c s) := by
  cases o with
  | request r =>
    refine ⟨⟨h.traffic, fun r' hr' => by cases hr'; exact .inl (hr r rfl)⟩,
      .of_pending rfl (.refl own _) fun _ hr' => hr'.request hA.1⟩
  | call =>
    refine ⟨⟨h.traffic, fun _ h => by cases h⟩,
      .of_pending rfl (.refl own _) fun r' hr' => hr'.congr ?_ rfl rfl⟩
    rw [show s.queue.pc = .idle from hA]
    exact fun _ h => by cases h
  | host => exact h.host hq hc
  | exec i => exact h.exec hq hc ha hA.1 hA.2
  | post i x =>
    obtain ⟨-, e, hs⟩ := hA
    have hstep : (QueueStep.post i x).step c s = { s with queue := Nvme.post c i e x s.queue } := by
      simp only [QueueStep.step, hs]
    rw [hstep]
    exact h.post hs x

/-- What other queues do to memory and to the drive. -/
theorem WriterQueue.congr (h : WriterQueue c own A Y base s) {disk user : ℕ → Byte}
    (hu : OwnKept own s.user user) : WriterQueue c own A Y base { s with disk := disk, user := user } :=
  ⟨h.traffic.of_kept hu, fun r hr => (h.asked r hr).imp_right fun hr => ⟨hr.1, hr.2.of_kept hr.1.own hu⟩⟩

/-- More bytes are written, and `Y` stays for those before. -/
theorem WriterQueue.extend (h : WriterQueue c own A Y base s) {Y' : ℕ → Byte} (hAB : ∀ a, A a → B a)
    (hY : ∀ a, A a → Y' a = Y a) : WriterQueue c own B Y' base s := by
  refine ⟨h.traffic.extend hAB hY, fun r hr => (h.asked r hr).imp_right ?_⟩
  rintro ⟨hr, hs⟩
  refine ⟨hr.mono hAB, fun k hk => ?_⟩
  have hfull := hr.job.full
  rw [hY _ (hr.job.within _ ⟨by omega, by omega⟩)]
  exact hs k hk

/-- A request of the writer. -/
theorem WriterQueue.request (h : WriterQueue c own A Y base s) {r : Request} (hr : Sends c own A r)
    (hs : Sourced c Y s.user r) : WriterQueue c own A Y base ((QueueStep.request r).step c s) :=
  ⟨h.traffic, fun r' hr' => by cases hr'; exact .inr ⟨hr, hs⟩⟩

/-- The holder of the lock works for what it worked for before, or for what it was asked for. -/
theorem serves_of_step {o : QueueStep} {r : Request} (h : (o.step c s).queue.pc.serves = some r)
    (hr : o ≠ .request r) : s.queue.pc.serves = some r := by
  cases o with
  | request r' =>
    cases h
    exact absurd rfl hr
  | call => cases h
  | host =>
    by_cases hbell : ∃ r' cid, s.queue.pc = .doorbell r' cid
    · obtain ⟨r', cid, hbell⟩ := hbell
      have h : (hostStep c s).queue.pc.serves = some r := h
      rw [hostStep, hbell] at h
      cases h
    · push Not at hbell
      exact (host_serves hbell).symm.trans h
  | exec i =>
    have h : (Nvme.exec i s).queue.pc.serves = some r := h
    rwa [exec_pc] at h
  | post i x => rwa [post_pc] at h

end Queue

/-! ### All queues -/

/-- The queues of the drives while one ULT writes; its commands are from `base` on. A byte of a drive
that differs from `Y` is one that it is still to write. -/
structure WriterQueues (c : Config) (own : ℕ → Prop) (A : ℕ → ℕ → Prop) (Y : ℕ → ℕ → Byte)
    (base : ℕ → ℕ → ℕ) (S : Driver) : Prop where
  queue : ∀ did < c.nd, ∀ core < c.nCore,
    WriterQueue (c.qp did core) own (A did) (Y did) (base did core) (S.port did core)
  pending : ∀ did < c.nd, ∀ a, S.disk did a = Y did a ∨ ∃ core < c.nCore, ∃ r,
    Pending (base did core) (S.queue did core) r ∧ r.write = true ∧ r.Targets (c.qp did core) a

section Queues

variable {c : Config} {own : ℕ → Prop} {A B : ℕ → ℕ → Prop} {Y : ℕ → ℕ → Byte} {base : ℕ → ℕ → ℕ}
  {S : Driver}

/-- A write that no drive has executed is not another ULT's. -/
theorem Others.executed {v : Reserve} (h : Others c v S) (hkept : ∀ did a, v.kept did a) {did core i : ℕ}
    (hd : did < c.nd) (hk : core < c.nCore) (hi : i < (S.queue did core).issued)
    (hs : ((S.queue did core).cmd i).stage.Unmoved) : ((S.queue did core).cmd i).req.write ≠ true := by
  have hne : ((S.queue did core).cmd i).stage ≠ .consumed := by
    intro hc
    rw [hc] at hs
    exact hs
  intro hw
  rcases h.cmds did hd core hk i hi hne with hf | ⟨-, hm⟩
  · rw [(hf.bystander (hkept did)).read] at hw
    cases hw
  · exact hm.not_unmoved hs

/-- Nor is a write that the holder of a lock works for. -/
theorem Others.serves_read {v : Reserve} (h : Others c v S) (hinv : DriverInv c S)
    (hkept : ∀ did a, v.kept did a) {did core : ℕ} (hd : did < c.nd) (hk : core < c.nCore) {r : Request}
    (hr : (S.queue did core).pc.serves = some r) : r.write = false := by
  have hq := hinv did hd core hk
  have hlast : ∀ (st : Stage) {cid : ℕ}, st.Unmoved → (S.queue did core).issued - 1 < (S.queue did core).issued ∧
      (S.queue did core).cmd ((S.queue did core).issued - 1) = ⟨r, cid, st⟩ → r.write = false := by
    rintro st cid hst ⟨hi, hcmd⟩
    have hread := h.executed hkept hd hk hi (by rw [hcmd]; exact hst)
    rw [hcmd] at hread
    exact Bool.eq_false_iff.mpr hread
  have hasked : (S.queue did core).pc.asked = some r → r.write = false :=
    fun hr => ((h.asked did hd core hk r hr).bystander (hkept did)).read
  cases hpc : (S.queue did core).pc with
  | fill r' cid =>
    rw [hpc] at hr
    cases hr
    exact hlast .claimed trivial (hq.filling hpc)
  | doorbell r' cid =>
    rw [hpc] at hr
    cases hr
    exact hlast .filled trivial (hq.ringing hpc)
  | _ =>
    rw [hpc] at hr hasked
    exact hasked hr

/-- The writer begins. -/
theorem Others.writer {v : Reserve} (h : Others c v S) (hkept : ∀ did a, v.kept did a) :
    WriterQueues c v.own (fun _ _ => False) S.disk (fun did core => (S.queue did core).issued) S where
  queue did hd core hk := by
    refine ⟨⟨le_rfl, fun i hi hs => ?_, fun i hi hs hw => ?_, fun i hi hs hw => ?_⟩, fun r hr => ?_⟩
    · exact (h.cmds did hd core hk i hi hs).imp (fun hf => hf.bystander (hkept did)) .inr
    · have hs : ((S.queue did core).cmd i).stage = .claimed := hs
      exact absurd hw (h.executed hkept hd hk hi (by rw [hs]; trivial))
    · exact absurd hw (h.executed hkept hd hk hi hs.unmoved)
    · exact .inl ((h.asked did hd core hk r hr).bystander (hkept did))
  pending did hd a := .inl rfl

/-- A step of any ULT or drive, other than a request of the writer. -/
theorem WriterQueues.next (h : WriterQueues c own A Y base S) (hinv : DriverInv c S) (hc : c.Valid)
    (ha : c.Addressed) {o : DriverStep} (hA : o.Admissible c S)
    (hr : ∀ r, o.on = .request r → Bystander own r) :
    WriterQueues c own A Y base (o.next c S) ∧ OwnKept own S.user (o.next c S).user := by
  obtain ⟨hstep, htoward⟩ := (h.queue _ hA.1 _ hA.2.1).step (hinv _ hA.1 _ hA.2.1)
    (hc.qp _ hA.1 _ hA.2.1) (ha _ hA.1 _ hA.2.1) hA.2.2.1 hr
  refine ⟨⟨fun did hd core hk => ?_, fun did hd a => ?_⟩, htoward.user⟩
  · by_cases hq : did = o.did c ∧ core = o.core c
    · obtain ⟨rfl, rfl⟩ := hq
      rw [port_next]
      exact hstep
    · have hport : (o.next c S).port did core =
          { S.port did core with disk := (o.next c S).disk did, user := (o.next c S).user } := by
        rw [Driver.port, queue_next_of_ne c o S hq]
        rfl
      rw [hport]
      exact (h.queue did hd core hk).congr htoward.user
  · by_cases he : did = o.did c
    · subst he
      rw [disk_next]
      rcases htoward.disk a with hsame | hY
      · rw [hsame]
        rcases h.pending _ hd a with hdone | ⟨core, hk, r, hp, hw, ht⟩
        · exact .inl hdone
        · by_cases hcore : core = o.core c
          · subst hcore
            rcases htoward.pending r hp hw with hp' | hdone
            · rw [← port_next] at hp'
              exact .inr ⟨_, hk, r, hp', hw, ht⟩
            · exact .inl (hsame.symm.trans (hdone a ht))
          · refine .inr ⟨core, hk, r, ?_, hw, ht⟩
            rw [queue_next_of_ne c o S fun hq => hcore hq.2]
            exact hp
      · exact .inl hY
    · rw [disk_next_of_ne c o S he]
      refine (h.pending did hd a).imp_right ?_
      rintro ⟨core, hk, r, hp, ht⟩
      refine ⟨core, hk, r, ?_, ht⟩
      rw [queue_next_of_ne c o S fun hq => he hq.1]
      exact hp

theorem serves_of_next {o : DriverStep} {did core : ℕ} {r : Request} (hr : o.on ≠ .request r)
    (h : ((o.next c S).queue did core).pc.serves = some r) : (S.queue did core).pc.serves = some r := by
  by_cases hq : did = o.did c ∧ core = o.core c
  · obtain ⟨rfl, rfl⟩ := hq
    have h : ((o.next c S).port (o.did c) (o.core c)).queue.pc.serves = some r := h
    rw [port_next] at h
    exact serves_of_step h hr
  · rwa [queue_next_of_ne c o S hq] at h

/-- What others store in memory. -/
theorem WriterQueues.store (h : WriterQueues c own A Y base S) {user : ℕ → Byte}
    (hu : OwnKept own S.user user) : WriterQueues c own A Y base { S with user := user } :=
  ⟨fun did hd core hk => (h.queue did hd core hk).congr hu, h.pending⟩

/-- More bytes are written, and `Y` stays for those before. -/
theorem WriterQueues.congr (h : WriterQueues c own A Y base S) (hAB : ∀ did a, A did a ↔ B did a) :
    WriterQueues c own B Y base S :=
  ⟨fun did hd core hk => (h.queue did hd core hk).extend (fun a => (hAB did a).mp) fun _ _ => rfl,
    h.pending⟩

/-- A request of the writer, for other bytes than those of `A`. -/
theorem WriterQueues.request (h : WriterQueues c own A Y base S) {o : DriverStep} {r : Request}
    (hA : o.Admissible c S) (hon : o.on = .request r) (hAB : ∀ did a, A did a → B did a)
    (hr : Sends (c.qp (o.did c) (o.core c)) own (B (o.did c)) r)
    (hout : ∀ a, r.Targets (c.qp (o.did c) (o.core c)) a → ¬ A (o.did c) a) :
    WriterQueues c own B (Function.update Y (o.did c) (blit (Y (o.did c)) S.user
      (r.start (c.qp (o.did c) (o.core c))) r.buf r.len)) base (o.next c S) ∧
      (o.next c S).user = S.user := by
  obtain ⟨hd₀, hk₀, hA, -⟩ := hA
  rw [hon] at hA
  have hfull := hr.job.full
  have huser : (o.next c S).user = S.user := by rw [user_next, hon]; rfl
  have hdisk : ∀ did, (o.next c S).disk did = S.disk did := by
    intro did
    by_cases he : did = o.did c
    · rw [he, disk_next, hon]
      rfl
    · exact disk_next_of_ne c o S he
  have hsame : ∀ a, ¬ r.Targets (c.qp (o.did c) (o.core c)) a →
      blit (Y (o.did c)) S.user (r.start (c.qp (o.did c) (o.core c))) r.buf r.len a = Y (o.did c) a := by
    intro a ha
    exact blit_outside _ _ (by unfold Request.Targets at ha; omega)
  have hY : ∀ did a, A did a → Function.update Y (o.did c) (blit (Y (o.did c)) S.user
      (r.start (c.qp (o.did c) (o.core c))) r.buf r.len) did a = Y did a := by
    intro did a ha
    by_cases he : did = o.did c
    · subst he
      rw [Function.update_self]
      exact hsame a fun ht => hout a ht ha
    · rw [Function.update_of_ne he]
  refine ⟨⟨fun did hd core hk => ?_, fun did hd a => ?_⟩, huser⟩
  · have hold := (h.queue did hd core hk).extend (hAB did) (hY did)
    by_cases hq : did = o.did c ∧ core = o.core c
    · obtain ⟨rfl, rfl⟩ := hq
      rw [port_next, hon]
      refine hold.request hr fun k hk => ?_
      rw [Function.update_self]
      exact (blit_at _ _ hk).symm
    · have hport : (o.next c S).port did core = S.port did core := by
        rw [Driver.port, queue_next_of_ne c o S hq, hdisk, huser]
        rfl
      rw [hport]
      exact hold
  · rw [hdisk]
    by_cases hin : did = o.did c ∧ r.Targets (c.qp (o.did c) (o.core c)) a
    · obtain ⟨rfl, ht⟩ := hin
      refine .inr ⟨_, hk₀, r, .asked ?_, hr.job.write, ht⟩
      change ((o.next c S).port (o.did c) (o.core c)).queue.pc.asked = _
      rw [port_next, hon]
      rfl
    · have hsame' : Function.update Y (o.did c) (blit (Y (o.did c)) S.user
          (r.start (c.qp (o.did c) (o.core c))) r.buf r.len) did a = Y did a := by
        by_cases he : did = o.did c
        · subst he
          rw [Function.update_self]
          exact hsame a fun ht => hin ⟨rfl, ht⟩
        · rw [Function.update_of_ne he]
      rw [hsame']
      refine (h.pending did hd a).imp_right ?_
      rintro ⟨core, hk, r', hp, ht⟩
      refine ⟨core, hk, r', ?_, ht⟩
      by_cases hq : did = o.did c ∧ core = o.core c
      · obtain ⟨rfl, rfl⟩ := hq
        change Pending _ ((o.next c S).port (o.did c) (o.core c)).queue r'
        rw [port_next, hon]
        exact hp.request (s := S.port (o.did c) (o.core c)) hA.1
      · rw [queue_next_of_ne c o S hq]
        exact hp

/-- When all writes were completed, the drives hold what they were for. -/
theorem WriterQueues.done (h : WriterQueues c own A Y base S)
    (hasked : ∀ did < c.nd, ∀ core < c.nCore, ∀ r, (S.queue did core).pc.asked = some r → r.write = false)
    (hdone : ∀ did < c.nd, ∀ core < c.nCore, ∀ i < (S.queue did core).issued, base did core ≤ i →
      ((S.queue did core).cmd i).req.write = true → ((S.queue did core).cmd i).stage.Completed) {did : ℕ}
    (hd : did < c.nd) : S.disk did = Y did := by
  funext a
  refine (h.pending did hd a).resolve_right ?_
  rintro ⟨core, hk, r, hp, hw, -⟩
  cases hp with
  | asked hr =>
    rw [hasked did hd core hk r hr] at hw
    cases hw
  | @cmd i hi hb hs =>
    have hstage := hdone did hd core hk i hi hb hw
    cases hst : ((S.queue did core).cmd i).stage with
    | consumed => rw [hst] at hs; exact hs
    | posted => rw [hst] at hs; exact hs
    | _ => rw [hst] at hstage; exact hstage

end Queues

end Pthabt.Nvme
