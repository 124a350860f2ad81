import Pthabt.Nvme.OneCore

/-! Queues in which one ULT reads while others use them too. The reader counts on some bytes of
memory, which nobody else writes, and on some bytes of the drives, which nobody writes. Its
requests are for these; whatever happens in a queue, its memory changes only to what it reads. -/

namespace Pthabt.Nvme

open Lib Bytes

/-- What the others leave alone: bytes of memory, and bytes of the drives. -/
structure Reserve where
  own : ℕ → Prop
  kept : ℕ → ℕ → Prop

/-- Nothing is left alone. -/
def Reserve.nothing : Reserve := ⟨fun _ => False, fun _ _ => False⟩

/-- A request of another ULT to drive `did`. -/
structure Foreign (c : QpConfig) (v : Reserve) (did : ℕ) (r : Request) : Prop where
  whole : r.Whole
  read : r.write = false → ∀ k < r.len, ¬ v.own (r.buf + k)
  write : r.write = true → ∀ a, r.Targets c a → ¬ v.kept did a

/-- A request of the reader, whose memory is to be as `X` says and whose bytes of the drives are
as `W` says. -/
structure Ours (c : QpConfig) (v : Reserve) (X : ℕ → Byte) (W : ℕ → ℕ → Byte) (did : ℕ) (r : Request) :
    Prop where
  read : r.write = false
  whole : r.Whole
  own : ∀ k < r.len, v.own (r.buf + k)
  kept : ∀ k < r.len, v.kept did (r.start c + k)
  wanted : ∀ k < r.len, W did (r.start c + k) = X (r.buf + k)

/-- Memory of the reader stays or becomes what `X` says. -/
def OwnToward (v : Reserve) (X user user' : ℕ → Byte) : Prop :=
  ∀ a, v.own a → user' a = user a ∨ user' a = X a

/-- A write whose bytes the drive has. -/
def Cmd.Landed (x : Cmd) : Prop := x.req.write = true ∧ x.stage.Moved

/-- The commands of a queue; the reader's are among those from `base` on. -/
structure Traffic (c : QpConfig) (v : Reserve) (X : ℕ → Byte) (W : ℕ → ℕ → Byte) (did base : ℕ)
    (cmd : ℕ → Cmd) (issued : ℕ) (dma : ℕ → Byte) : Prop where
  base_le : base ≤ issued
  known : ∀ i < issued, (cmd i).stage ≠ .consumed → Foreign c v did (cmd i).req ∨
    (base ≤ i ∧ Ours c v X W did (cmd i).req) ∨ (cmd i).Landed
  moved : ∀ i < issued, base ≤ i → (cmd i).stage.Moved → Ours c v X W did (cmd i).req →
    Agree dma (c.buf4kPa (cmd i).cid) X (cmd i).req.buf (cmd i).req.len

/-- What the first `n` completions were to bring to the reader is in its memory. -/
def BroughtOurs (c : QpConfig) (v : Reserve) (X : ℕ → Byte) (W : ℕ → ℕ → Byte) (did base : ℕ)
    (cmd : ℕ → Cmd) (posted : List ℕ) (user : ℕ → Byte) (n : ℕ) : Prop :=
  ∀ p < n, ∀ i, posted[p]? = some i → base ≤ i → Ours c v X W did (cmd i).req →
    Agree user (cmd i).req.buf X (cmd i).req.buf (cmd i).req.len

/-- A queue that the reader shares with others. -/
structure SharedQueue (c : QpConfig) (v : Reserve) (X : ℕ → Byte) (W : ℕ → ℕ → Byte) (did base : ℕ)
    (s : Port) : Prop where
  traffic : Traffic c v X W did base s.queue.cmd s.queue.issued s.queue.dma
  asked : ∀ r, s.queue.pc.asked = some r → Foreign c v did r ∨ Ours c v X W did r
  kept : ∀ a, v.kept did a → s.disk a = W did a
  brought : BroughtOurs c v X W did base s.queue.cmd s.queue.posted s.user
    (copied s.queue.taken s.queue.pc)

section Requests

variable {c : QpConfig} {v : Reserve} {X user user' : ℕ → Byte} {W : ℕ → ℕ → Byte} {did : ℕ} {r : Request}

theorem OwnToward.refl (v : Reserve) (X user : ℕ → Byte) : OwnToward v X user user :=
  fun _ _ => .inl rfl

theorem OwnToward.keep (h : OwnToward v X user user') {a : ℕ} (hown : v.own a) (ha : user a = X a) :
    user' a = X a := by
  rcases h a hown with hu | hu
  · rw [hu, ha]
  · exact hu

/-- What was brought stays. -/
theorem OwnToward.agree (h : OwnToward v X user user') (hr : Ours c v X W did r)
    (ha : Agree user r.buf X r.buf r.len) : Agree user' r.buf X r.buf r.len :=
  fun k hk => h.keep (hr.own k hk) (ha k hk)

/-- A request that brings something is of one kind only. -/
theorem Foreign.not_ours (h : Foreign c v did r) (hlen : 0 < r.len) : ¬ Ours c v X W did r :=
  fun hr => h.read hr.read 0 hlen (hr.own 0 hlen)

end Requests

section Traffic

variable {c : QpConfig} {v : Reserve} {X dma : ℕ → Byte} {W : ℕ → ℕ → Byte} {did base issued : ℕ}
  {cmd : ℕ → Cmd}

theorem Traffic.claim (h : Traffic c v X W did base cmd issued dma) {r : Request}
    (hr : Foreign c v did r ∨ Ours c v X W did r) (cid : ℕ) :
    Traffic c v X W did base (Function.update cmd issued ⟨r, cid, .claimed⟩) (issued + 1) dma := by
  refine ⟨Nat.le_succ_of_le h.base_le, ?_, ?_⟩
  · exact forall_claim (P := fun i x => x.stage ≠ .consumed → Foreign c v did x.req ∨
      (base ≤ i ∧ Ours c v X W did x.req) ∨ x.Landed) h.known
      fun _ => hr.imp_right fun hr => .inl ⟨h.base_le, hr⟩
  · exact forall_claim (P := fun i x => base ≤ i → x.stage.Moved → Ours c v X W did x.req →
      Agree dma (c.buf4kPa x.cid) X x.req.buf x.req.len) h.moved fun _ => False.elim

/-- A command at another stage, at which its data is moved no less and no more. -/
theorem Traffic.setStage (h : Traffic c v X W did base cmd issued dma) {i : ℕ} {st : Stage}
    (hc : (cmd i).stage = .consumed → st = .consumed) (hm : st.Moved → (cmd i).stage.Moved)
    (hl : (cmd i).stage.Moved → st.Moved ∨ st = .consumed) :
    Traffic c v X W did base (setStage cmd i st) issued dma := by
  refine ⟨h.base_le, fun k hk hs => ?_, fun k hk hb hs => ?_⟩
  · by_cases he : k = i
    · subst he
      rw [setStage_self] at hs
      rw [setStage_req]
      refine (h.known k hk fun hcons => hs (hc hcons)).imp_right (Or.imp_right ?_)
      rintro ⟨hw, hmoved⟩
      refine ⟨(congrArg Request.write (setStage_req cmd k st k)).trans hw, ?_⟩
      rw [setStage_self]
      exact (hl hmoved).resolve_right hs
    · rw [setStage_of_ne _ _ he] at hs ⊢
      exact h.known k hk hs
  · rw [setStage_cid, setStage_req]
    by_cases he : k = i
    · subst he
      rw [setStage_self] at hs
      exact h.moved k hk hb (hm hs)
    · rw [setStage_of_ne _ _ he] at hs
      exact h.moved k hk hb hs

/-- DMA buffers change, but not those of commands whose data was moved. -/
theorem Traffic.of_dma (h : Traffic c v X W did base cmd issued dma) {dma' : ℕ → Byte}
    (hd : ∀ i < issued, (cmd i).stage.Moved →
      Agree dma' (c.buf4kPa (cmd i).cid) dma (c.buf4kPa (cmd i).cid) blksz) :
    Traffic c v X W did base cmd issued dma' :=
  ⟨h.base_le, h.known, fun i hi hb hs hr =>
    ((hd i hi hs).mono (hr.whole.len_le.trans hr.whole.le)).trans (h.moved i hi hb hs hr)⟩

/-- The drive moves the data of command `i`. -/
theorem Traffic.exec (h : Traffic c v X W did base cmd issued dma) {i : ℕ} {dma' : ℕ → Byte}
    (hs : (cmd i).stage = .submitted)
    (hd : ∀ k < issued, (cmd k).stage.Moved → Ours c v X W did (cmd k).req →
      Agree dma' (c.buf4kPa (cmd k).cid) dma (c.buf4kPa (cmd k).cid) (cmd k).req.len)
    (hnew : Ours c v X W did (cmd i).req →
      Agree dma' (c.buf4kPa (cmd i).cid) X (cmd i).req.buf (cmd i).req.len) (e : Sqe) :
    Traffic c v X W did base (Nvme.setStage cmd i (.executed e)) issued dma' := by
  refine ⟨h.base_le, fun k hk hc => ?_, fun k hk hb hm hr => ?_⟩
  · by_cases he : k = i
    · subst he
      rw [setStage_req]
      have hk' := h.known k hk (by rw [hs]; simp)
      refine hk'.imp_right (Or.imp_right ?_)
      rintro ⟨-, hmoved⟩
      rw [hs] at hmoved
      exact hmoved.elim
    · rw [setStage_of_ne _ _ he] at hc ⊢
      exact h.known k hk hc
  · rw [setStage_req] at hr
    rw [setStage_cid, setStage_req]
    by_cases he : k = i
    · subst he
      exact hnew hr
    · rw [setStage_of_ne _ _ he] at hm
      exact (hd k hk hm hr).trans (h.moved k hk hb hm hr)

theorem BroughtOurs.user {posted : List ℕ} {user user' : ℕ → Byte} {n : ℕ}
    (h : BroughtOurs c v X W did base cmd posted user n) (hu : OwnToward v X user user') :
    BroughtOurs c v X W did base cmd posted user' n :=
  fun p hp i hi hb hr => hu.agree hr (h p hp i hi hb hr)

theorem BroughtOurs.setStage {posted : List ℕ} {user : ℕ → Byte} {n : ℕ}
    (h : BroughtOurs c v X W did base cmd posted user n) (i : ℕ) (st : Stage) :
    BroughtOurs c v X W did base (Nvme.setStage cmd i st) posted user n := by
  intro p hp k hk hb hr
  rw [setStage_req] at hr ⊢
  exact h p hp k hk hb hr

theorem BroughtOurs.claim {posted : List ℕ} {user : ℕ → Byte} {n : ℕ}
    (h : BroughtOurs c v X W did base cmd posted user n) (hlt : ∀ i ∈ posted, i < issued) (x : Cmd) :
    BroughtOurs c v X W did base (Function.update cmd issued x) posted user n := by
  intro p hp i hi hb hr
  rw [Function.update_of_ne (hlt i (List.mem_of_getElem? hi)).ne] at hr ⊢
  exact h p hp i hi hb hr

theorem BroughtOurs.append {posted : List ℕ} {user : ℕ → Byte} {n : ℕ}
    (h : BroughtOurs c v X W did base cmd posted user n) (hn : n ≤ posted.length) (i : ℕ) :
    BroughtOurs c v X W did base cmd (posted ++ [i]) user n := by
  intro p hp k hk hb hr
  rw [List.getElem?_append_left (by omega)] at hk
  exact h p hp k hk hb hr

end Traffic

section Queue

variable {c : QpConfig} {v : Reserve} {X : ℕ → Byte} {W : ℕ → ℕ → Byte} {did base : ℕ} {s : Port}

/-- What other queues do to memory and to the drive. -/
theorem SharedQueue.congr (h : SharedQueue c v X W did base s) {disk user : ℕ → Byte}
    (hd : ∀ a, v.kept did a → disk a = W did a) (hu : OwnToward v X s.user user) :
    SharedQueue c v X W did base { s with disk := disk, user := user } :=
  ⟨h.traffic, h.asked, hd, h.brought.user hu⟩

theorem Stage.Moved.rung {st : Stage} (h : st.Moved) : st.Rung := by
  cases st <;> trivial

theorem SharedQueue.newSqe (h : SharedQueue c v X W did base s) (hq : QueueInv c s.queue) {r : Request}
    (hpc : s.queue.pc = .newSqe r) :
    SharedQueue c v X W did base { s with queue := newSqe c r s.queue } := by
  have hr := h.asked r (by rw [hpc]; rfl)
  have hb := h.brought
  rw [hpc] at hb
  by_cases hf : s.queue.doneFlag s.queue.sqTail = 0
  · rw [Nvme.newSqe, if_pos hf]
    exact ⟨h.traffic, (fun r' hr' => by cases hr'; exact hr), h.kept, hb⟩
  · rw [Nvme.newSqe, if_neg hf]
    exact ⟨h.traffic.claim hr _, (fun _ h => by cases h), h.kept, hb.claim hq.ring.posted_lt _⟩

theorem SharedQueue.fill (h : SharedQueue c v X W did base s) (hq : QueueInv c s.queue) (hc : c.Valid)
    {r : Request} {cid : ℕ} (hpc : s.queue.pc = .fill r cid) :
    SharedQueue c v X W did base (Nvme.fill c r cid s) := by
  obtain ⟨-, hlast⟩ := hq.filling hpc
  have hb := h.brought
  rw [hpc] at hb
  have hdma : ∀ i < s.queue.issued, (s.queue.cmd i).stage.Moved →
      Agree (Nvme.fill c r cid s).queue.dma (c.buf4kPa (s.queue.cmd i).cid) s.queue.dma
        (c.buf4kPa (s.queue.cmd i).cid) blksz := by
    intro i hi hm
    have hagree := hq.host_dma hc hi hm.rung
    rwa [hostStep, hpc] at hagree
  refine ⟨(h.traffic.of_dma hdma).setStage ?_ False.elim ?_, (fun _ h => by cases h), h.kept, hb.setStage _ _⟩
  · rw [hlast]
    simp
  · rw [hlast]
    exact False.elim

theorem SharedQueue.doorbell (h : SharedQueue c v X W did base s) (hq : QueueInv c s.queue) {r : Request}
    {cid : ℕ} (hpc : s.queue.pc = .doorbell r cid) :
    SharedQueue c v X W did base { s with queue := doorbell s.queue } := by
  obtain ⟨-, hlast⟩ := hq.ringing hpc
  have hb := h.brought
  rw [hpc] at hb
  refine ⟨h.traffic.setStage ?_ False.elim ?_, (fun _ h => by cases h), h.kept, hb.setStage _ _⟩
  · rw [hlast]
    simp
  · rw [hlast]
    exact False.elim

theorem SharedQueue.testPhase (h : SharedQueue c v X W did base s) {back : Option Request}
    (hpc : s.queue.pc = .checkCq back) :
    SharedQueue c v X W did base { s with queue := testPhase back s.queue } := by
  have hasked := h.asked
  have hb := h.brought
  rw [hpc] at hasked hb
  unfold Nvme.testPhase
  split_ifs
  · exact ⟨h.traffic, hasked, h.kept, hb⟩
  · cases back with
    | none => exact ⟨h.traffic, (fun _ h => by cases h), h.kept, hb⟩
    | some r => exact ⟨h.traffic, hasked, h.kept, hb⟩

/-- The copy of a completion brings the reader what it was for, and does not touch its memory when
the completion is another's. -/
theorem SharedQueue.copyOut (h : SharedQueue c v X W did base s) (hq : QueueInv c s.queue)
    {back : Option Request} {cid : ℕ} (hpc : s.queue.pc = .copy back cid) :
    SharedQueue c v X W did base (copyOut c back cid s) ∧
      OwnToward v X s.user (copyOut c back cid s).user := by
  have hasked := h.asked
  have hb := h.brought
  rw [hpc] at hasked hb
  obtain ⟨i, hcopying⟩ := hq.copying hpc
  have hi := hcopying.lt
  have hposted := hcopying.posted
  -- the completions copied so far are the old ones and `i`
  have hcopied : ∀ user, OwnToward v X s.user user → (base ≤ i → Ours c v X W did (s.queue.cmd i).req →
      Agree user (s.queue.cmd i).req.buf X (s.queue.cmd i).req.buf (s.queue.cmd i).req.len) →
        BroughtOurs c v X W did base s.queue.cmd s.queue.posted user (s.queue.taken + 1) := by
    intro user hu hnew p hp k hk hkb hr
    by_cases hlt : p < s.queue.taken
    · exact hb.user hu p hlt k hk hkb hr
    · obtain rfl : p = s.queue.taken := by omega
      rw [hcopying.next] at hk
      cases hk
      exact hnew hkb hr
  cases hwr : (s.queue.cmd i).req.write with
  | true =>
    rw [hcopying.write hwr]
    refine ⟨⟨h.traffic, hasked, h.kept, hcopied _ (.refl v X _) fun _ hr => ?_⟩, .refl v X _⟩
    rw [hr.read] at hwr
    cases hwr
  | false =>
    have hmoved : base ≤ i → Ours c v X W did (s.queue.cmd i).req →
        Agree s.queue.dma (c.buf4kPa cid) X (s.queue.cmd i).req.buf (s.queue.cmd i).req.len := by
      intro hbi hr
      have hagree := h.traffic.moved i hi hbi (by rw [hposted]; trivial) hr
      rwa [hcopying.cid_eq] at hagree
    have htoward : OwnToward v X s.user (blit s.user s.queue.dma (s.queue.cmd i).req.buf (c.buf4kPa cid)
        (s.queue.cmd i).req.len) := by
      intro a ha
      by_cases hin : (s.queue.cmd i).req.buf ≤ a ∧ a < (s.queue.cmd i).req.buf + (s.queue.cmd i).req.len
      · obtain ⟨k, rfl⟩ := Nat.exists_eq_add_of_le hin.1
        have hk : k < (s.queue.cmd i).req.len := by omega
        right
        rw [blit_at _ _ hk]
        rcases h.traffic.known i hi (by rw [hposted]; simp) with hf | ⟨hbi, hr⟩ | ⟨hw, -⟩
        · exact absurd ha (hf.read hwr k hk)
        · exact hmoved hbi hr k hk
        · rw [hwr] at hw
          cases hw
      · left
        exact blit_outside _ _ (by omega)
    rw [hcopying.read hwr]
    exact ⟨⟨h.traffic, hasked, h.kept, hcopied _ htoward fun hbi hr =>
      (blit_agree _ _ _ _ _).trans (hmoved hbi hr)⟩, htoward⟩

theorem SharedQueue.mark (h : SharedQueue c v X W did base s) {back : Option Request} {cid : ℕ}
    (hpc : s.queue.pc = .mark back cid) :
    SharedQueue c v X W did base { s with queue := mark c back cid s.queue } := by
  have hasked := h.asked
  have hb := h.brought
  rw [hpc] at hasked hb
  exact ⟨h.traffic.setStage (fun _ => rfl) False.elim fun _ => .inr rfl, hasked, h.kept, hb.setStage _ _⟩

theorem SharedQueue.host (h : SharedQueue c v X W did base s) (hq : QueueInv c s.queue) (hc : c.Valid) :
    SharedQueue c v X W did base (hostStep c s) ∧ OwnToward v X s.user (hostStep c s).user := by
  unfold hostStep
  cases hpc : s.queue.pc with
  | idle => exact ⟨h, .refl v X _⟩
  | newSqe r => exact ⟨h.newSqe hq hpc, .refl v X _⟩
  | fill r cid => exact ⟨h.fill hq hc hpc, .refl v X _⟩
  | doorbell r cid => exact ⟨h.doorbell hq hpc, .refl v X _⟩
  | checkCq back => exact ⟨h.testPhase hpc, .refl v X _⟩
  | copy back cid => exact h.copyOut hq hpc
  | mark back cid => exact ⟨h.mark hpc, .refl v X _⟩

/-- The buffers of commands whose data was moved are apart from that of a submitted one. -/
theorem QueueInv.moved_apart {q : Queue} (hq : QueueInv c q) (hc : c.Valid) {i k : ℕ} (hi : i < q.issued)
    (hk : k < q.issued) (hs : (q.cmd i).stage = .submitted) (hm : (q.cmd k).stage.Moved) :
    Apart (c.buf4kPa (q.cmd k).cid) blksz (c.buf4kPa (q.cmd i).cid) blksz := by
  refine buf4k_apart hc (hq.slots.cid_lt k hk) (hq.slots.cid_lt i hi) fun he => ?_
  have hki := hq.slots.distinct k hk i hi hm.rung.not_consumed (by rw [hs]; simp) he
  rw [hki, hs] at hm
  exact hm

/-- The drive executes a read. -/
theorem SharedQueue.exec_read (h : SharedQueue c v X W did base s) (hq : QueueInv c s.queue)
    (hc : c.Valid) (ha : c.Addressed) {i : ℕ} (hi : i < s.queue.issued)
    (hs : (s.queue.cmd i).stage = .submitted) (hwr : (s.queue.cmd i).req.write = false)
    (hw : (s.queue.cmd i).req.Whole) : SharedQueue c v X W did base (Nvme.exec i s) := by
  rw [hq.exec_read hc ha hi hs hwr hw]
  refine ⟨h.traffic.exec hs (fun k hk hm hr => ?_) (fun hr j hj => ?_) _, h.asked, h.kept,
    h.brought.setStage _ _⟩
  · have hapart := hq.moved_apart hc hi hk hs hm
    exact agree_blit _ _ (hapart.mono (hr.whole.len_le.trans hr.whole.le) hw.le)
  · have hmoved := blit_at s.queue.dma s.disk (d := c.buf4kPa (s.queue.cmd i).cid)
      (s := (s.queue.cmd i).req.start c) (lt_of_lt_of_le hj hr.whole.len_le)
    exact hmoved.trans ((h.kept _ (hr.kept j hj)).trans (hr.wanted j hj))

/-- The drive executes a write, which is another's. -/
theorem SharedQueue.exec_write (h : SharedQueue c v X W did base s) (hq : QueueInv c s.queue)
    (hc : c.Valid) (ha : c.Addressed) {i : ℕ} (hi : i < s.queue.issued)
    (hs : (s.queue.cmd i).stage = .submitted) (hwr : (s.queue.cmd i).req.write = true)
    (hf : Foreign c v did (s.queue.cmd i).req) : SharedQueue c v X W did base (Nvme.exec i s) := by
  rw [hq.exec_write hc ha hi hs hwr hf.whole]
  refine ⟨h.traffic.exec hs (fun _ _ _ _ => agree_refl _ _ _) (fun hr => ?_) _, h.asked,
    fun a hkept => ?_, h.brought.setStage _ _⟩
  · rw [hr.read] at hwr
    cases hwr
  · have hout : ¬ (s.queue.cmd i).req.Targets c a := fun ht => hf.write hwr a ht hkept
    unfold Request.Targets at hout
    exact (blit_outside _ _ (by omega)).trans (h.kept a hkept)

theorem SharedQueue.exec (h : SharedQueue c v X W did base s) (hq : QueueInv c s.queue)
    (hc : c.Valid) (ha : c.Addressed) {i : ℕ} (hi : i < s.queue.issued)
    (hs : (s.queue.cmd i).stage = .submitted) : SharedQueue c v X W did base (Nvme.exec i s) := by
  rcases h.traffic.known i hi (by rw [hs]; simp) with hf | ⟨-, hr⟩ | ⟨-, hm⟩
  · cases hwr : (s.queue.cmd i).req.write with
    | true => exact h.exec_write hq hc ha hi hs hwr hf
    | false => exact h.exec_read hq hc ha hi hs hwr hf.whole
  · exact h.exec_read hq hc ha hi hs hr.read hr.whole
  · rw [hs] at hm
    exact hm.elim

theorem SharedQueue.post (h : SharedQueue c v X W did base s) (hq : QueueInv c s.queue) {i : ℕ} {e : Sqe}
    (hs : (s.queue.cmd i).stage = .executed e) (x : Cqe) :
    SharedQueue c v X W did base { s with queue := post c i e x s.queue } := by
  refine ⟨h.traffic.setStage ?_ (fun _ => by rw [hs]; trivial) fun _ => .inl trivial, h.asked, h.kept,
    (h.brought.setStage _ _).append hq.copied_le i⟩
  rw [hs]
  simp

theorem exec_user (i : ℕ) (s : Port) : (Nvme.exec i s).user = s.user := by
  unfold Nvme.exec transfer
  dsimp only
  split_ifs <;> rfl

/-- Any step of the queue. -/
theorem SharedQueue.step (h : SharedQueue c v X W did base s) (hq : QueueInv c s.queue) (hc : c.Valid)
    (ha : c.Addressed) {o : QueueStep} (hA : o.Admissible s.queue)
    (hr : ∀ r, o = .request r → Foreign c v did r ∨ Ours c v X W did r) :
    SharedQueue c v X W did base (o.step c s) ∧ OwnToward v X s.user (o.step c s).user := by
  cases o with
  | request r =>
    have hb := h.brought
    rw [hA.1] at hb
    exact ⟨⟨h.traffic, (fun r' hr' => by cases hr'; exact hr r rfl), h.kept, hb⟩, .refl v X _⟩
  | call =>
    have hb := h.brought
    rw [hA] at hb
    exact ⟨⟨h.traffic, (fun _ h => by cases h), h.kept, hb⟩, .refl v X _⟩
  | host => exact h.host hq hc
  | exec i =>
    refine ⟨h.exec hq hc ha hA.1 hA.2, ?_⟩
    change OwnToward v X s.user (Nvme.exec i s).user
    rw [exec_user]
    exact .refl v X _
  | post i x =>
    obtain ⟨-, e, hs⟩ := hA
    have hstep : (QueueStep.post i x).step c s = { s with queue := Nvme.post c i e x s.queue } := by
      simp only [QueueStep.step, hs]
    rw [hstep]
    exact ⟨h.post hq hs x, .refl v X _⟩

end Queue

/-! ### All queues -/

/-- The queues that the reader shares with others; its commands are from `base` on. -/
def SharedQueues (c : Config) (v : Reserve) (X : ℕ → Byte) (W : ℕ → ℕ → Byte) (base : ℕ → ℕ → ℕ)
    (S : Driver) : Prop :=
  ∀ did < c.nd, ∀ core < c.nCore, SharedQueue (c.qp did core) v X W did (base did core) (S.port did core)

/-- What is in the queues is other ULTs' work, or was written. -/
structure Others (c : Config) (v : Reserve) (S : Driver) : Prop where
  asked : ∀ did < c.nd, ∀ core < c.nCore, ∀ r, (S.queue did core).pc.asked = some r →
    Foreign (c.qp did core) v did r
  cmds : ∀ did < c.nd, ∀ core < c.nCore, ∀ i < (S.queue did core).issued,
    ((S.queue did core).cmd i).stage ≠ .consumed →
      Foreign (c.qp did core) v did ((S.queue did core).cmd i).req ∨ ((S.queue did core).cmd i).Landed

section Queues

variable {c : Config} {v : Reserve} {X : ℕ → Byte} {W : ℕ → ℕ → Byte} {base : ℕ → ℕ → ℕ} {S : Driver}

/-- The reader begins. -/
theorem Others.shared (h : Others c v S) (hinv : DriverInv c S) (X : ℕ → Byte) :
    SharedQueues c v X S.disk (fun did core => (S.queue did core).issued) S := by
  intro did hd core hk
  refine ⟨⟨le_rfl, fun i hi hs => (h.cmds did hd core hk i hi hs).imp_right .inr,
    fun i hi hb => absurd hi (Nat.not_lt_of_le hb)⟩, fun r hr => .inl (h.asked did hd core hk r hr),
    fun a _ => rfl, fun p _ i hi hb => ?_⟩
  have hlt := (hinv did hd core hk).ring.posted_lt i (List.mem_of_getElem? hi)
  exact absurd hlt (Nat.not_lt_of_le hb)

/-- A step of any ULT or drive. -/
theorem SharedQueues.next (h : SharedQueues c v X W base S) (hinv : DriverInv c S) (hc : c.Valid)
    (ha : c.Addressed) {o : DriverStep} (hA : o.Admissible c S)
    (hr : ∀ r, o.on = .request r → Foreign (c.qp (o.did c) (o.core c)) v (o.did c) r ∨
      Ours (c.qp (o.did c) (o.core c)) v X W (o.did c) r) :
    SharedQueues c v X W base (o.next c S) ∧ OwnToward v X S.user (o.next c S).user := by
  obtain ⟨hstep, huser⟩ := (h _ hA.1 _ hA.2.1).step (hinv _ hA.1 _ hA.2.1) (hc.qp _ hA.1 _ hA.2.1)
    (ha _ hA.1 _ hA.2.1) hA.2.2.1 hr
  refine ⟨fun did hd core hk => ?_, huser⟩
  by_cases hq : did = o.did c ∧ core = o.core c
  · obtain ⟨rfl, rfl⟩ := hq
    rw [port_next]
    exact hstep
  · have hport : (o.next c S).port did core =
        { S.port did core with disk := (o.next c S).disk did, user := (o.next c S).user } := by
      rw [Driver.port, queue_next_of_ne c o S hq]
      rfl
    rw [hport]
    refine (h did hd core hk).congr (fun a hkept => ?_) huser
    by_cases he : did = o.did c
    · subst he
      rw [disk_next]
      exact hstep.kept a hkept
    · rw [disk_next_of_ne c o S he]
      exact (h did hd core hk).kept a hkept

/-- What others store in memory. -/
theorem SharedQueues.store (h : SharedQueues c v X W base S) {user : ℕ → Byte}
    (hu : ∀ a, v.own a → user a = S.user a) : SharedQueues c v X W base { S with user := user } :=
  fun did hd core hk => (h did hd core hk).congr (h did hd core hk).kept fun a ha => .inl (hu a ha)

/-- What was consumed is in the reader's memory. -/
theorem SharedQueues.brought (h : SharedQueues c v X W base S) (hinv : DriverInv c S) {did core i : ℕ}
    (hd : did < c.nd) (hk : core < c.nCore) (hi : i < (S.queue did core).issued) (hb : base did core ≤ i)
    (hs : ((S.queue did core).cmd i).stage = .consumed)
    (hr : Ours (c.qp did core) v X W did ((S.queue did core).cmd i).req) :
    Agree S.user ((S.queue did core).cmd i).req.buf X ((S.queue did core).cmd i).req.buf
      ((S.queue did core).cmd i).req.len := by
  obtain ⟨p, hp, hget⟩ := (hinv did hd core hk).consumed_at hi hs
  exact (h did hd core hk).brought p hp i hget hb hr

end Queues

end Pthabt.Nvme
