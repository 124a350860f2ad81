import Pthabt.Nvme.Queue

/-! The invariant of a queue pair, in parts that each speak of a few of its fields: which
command holds which slot, what memory and `rbuf` say of it, and how far its completion
is. A command that was not consumed holds its slot, whose `done_flag` is 0, alone. -/

namespace Pthabt.Nvme

open Lib Bytes PhaseRing

/-- The DMA buffers fill 2 MiB pages, which are apart. -/
structure QpConfig.Paged (c : QpConfig) : Prop where
  pos : 0 < c.qd
  pages : c.qd * blksz % (2 * 1024 * 1024) = 0
  apart : ∀ p < n2mbPage c.qd, ∀ k < n2mbPage c.qd, p ≠ k →
    Apart (c.pa p) (2 * 1024 * 1024) (c.pa k) (2 * 1024 * 1024)

/-- The configurations that the driver is laid out for: the completion queue ends where the
submission queue begins. -/
structure QpConfig.Valid (c : QpConfig) : Prop extends c.Paged where
  le : c.qd ≤ 1024

/-- The command was filled and not consumed: its slot's `rbuf` and `len` are its own. -/
def Stage.Wired : Stage → Prop
  | .filled | .submitted | .executed _ | .posted => True
  | _ => False

/-- The entry of the command was written and not read by the drive. -/
def Stage.Written : Stage → Prop
  | .filled | .submitted => True
  | _ => False

/-- The entry that a command has in the submission queue. -/
def sqeOf (c : QpConfig) (x : Cmd) : Sqe :=
  ⟨x.req.opc, x.cid, c.buf4kPa x.cid % 2 ^ 64, reqCdw10 c.nd x.req.lba, x.req.cdw12⟩

/-- Slots and their commands. -/
structure Slots (qd : ℕ) (cmd : ℕ → Cmd) (issued : ℕ) (doneFlag : ℕ → ℕ) (sqTail : ℕ) : Prop where
  tail : sqTail < qd
  cid_lt : ∀ i < issued, (cmd i).cid < qd
  fits : ∀ i < issued, (cmd i).req.Fits
  busy : ∀ i < issued, (cmd i).stage ≠ .consumed → doneFlag (cmd i).cid = 0
  distinct : ∀ i < issued, ∀ k < issued, (cmd i).stage ≠ .consumed → (cmd k).stage ≠ .consumed →
    (cmd i).cid = (cmd k).cid → i = k

/-- What memory holds for the commands. -/
structure Wiring (c : QpConfig) (cmd : ℕ → Cmd) (issued : ℕ) (sqcq rbuf len : ℕ → ℕ) : Prop where
  slotCid : ∀ t < c.qd, (readSqe sqcq t).cid = t
  rbuf_eq : ∀ i < issued, (cmd i).stage.Wired → rbuf (cmd i).cid = (cmd i).req.rbuf
  len_eq : ∀ i < issued, (cmd i).stage.Wired → len (cmd i).cid = (cmd i).req.rlen
  written : ∀ i < issued, (cmd i).stage.Written → readSqe sqcq (cmd i).cid = sqeOf c (cmd i)
  fetched : ∀ i < issued, ∀ e, (cmd i).stage = .executed e → e = sqeOf c (cmd i)

/-- The completion queue. -/
structure CqRing (qd : ℕ) (cmd : ℕ → Cmd) (issued : ℕ) (posted : List ℕ) (taken : ℕ)
    (sqcq : ℕ → ℕ) (cqHead : ℕ) (cqPhase : Bool) : Prop where
  holds : Holds qd (cqSlot sqcq) (posted.map fun i => (cmd i).cid)
  head : cqHead = taken % qd
  phase : cqPhase = tag qd taken
  taken_le : taken ≤ posted.length
  bound : posted.length ≤ taken + qd
  posted_lt : ∀ i ∈ posted, i < issued
  nodup : posted.Nodup
  isPosted : ∀ i < issued, (cmd i).stage = .posted ↔ i ∈ posted.drop taken
  isConsumed : ∀ i < issued, (cmd i).stage = .consumed ↔ i ∈ posted.take taken

/-- What the place of the lock's holder says. -/
def PcInv (cmd : ℕ → Cmd) (issued : ℕ) (posted : List ℕ) (taken : ℕ) : HostPc → Prop
  | .newSqe r | .checkCq (some r) => r.Fits
  | .fill r cid => 0 < issued ∧ cmd (issued - 1) = ⟨r, cid, .claimed⟩
  | .doorbell r cid => 0 < issued ∧ cmd (issued - 1) = ⟨r, cid, .filled⟩
  | .copy back cid | .mark back cid =>
    (∃ i, posted[taken]? = some i ∧ (cmd i).cid = cid) ∧ ∀ r, back = some r → r.Fits
  | _ => True

/-- Only the holder's command is not submitted yet. -/
structure Handed (cmd : ℕ → Cmd) (issued : ℕ) (pc : HostPc) : Prop where
  claimed : ∀ i < issued, (cmd i).stage = .claimed → i + 1 = issued ∧ ∃ r cid, pc = .fill r cid
  filled : ∀ i < issued, (cmd i).stage = .filled → i + 1 = issued ∧ ∃ r cid, pc = .doorbell r cid

/-- The copy that the completion of command `i` makes. -/
def copyOf (cmd : ℕ → Cmd) (i : ℕ) : Option Copy :=
  if (cmd i).req.write then none else some ⟨i, (cmd i).req.buf, (cmd i).cid, (cmd i).req.len⟩

/-- How many completions were copied: one more than were consumed, between the two. -/
def copied (taken : ℕ) : HostPc → ℕ
  | .mark _ _ => taken + 1
  | _ => taken

structure QueueInv (c : QpConfig) (q : Queue) : Prop where
  slots : Slots c.qd q.cmd q.issued q.doneFlag q.sqTail
  wiring : Wiring c q.cmd q.issued q.sqcq q.rbuf q.len
  ring : CqRing c.qd q.cmd q.issued q.posted q.taken q.sqcq q.cqHead q.cqPhase
  pcInv : PcInv q.cmd q.issued q.posted q.taken q.pc
  handed : Handed q.cmd q.issued q.pc
  copies : q.copies = (q.posted.take (copied q.taken q.pc)).filterMap (copyOf q.cmd)

/-! ### DMA buffers -/

theorem n2mbPage_eq {c : QpConfig} (h : c.Valid) : c.qd = 512 * n2mbPage c.qd := by
  have hp := h.pages
  have hpos := h.pos
  simp only [blksz] at hp
  have hmul : c.qd = 512 * (c.qd * 4096 / 2097152) := by omega
  have h1 : 1 ≤ c.qd * 4096 / 2097152 := by omega
  rw [n2mbPage, blksz]
  change c.qd = 512 * max (c.qd * 4096 / 2097152) 1
  rw [max_eq_left h1]
  exact hmul

/-- The DMA buffers of two identifiers do not meet. -/
theorem buf4k_apart {c : QpConfig} (h : c.Valid) {a b : ℕ} (ha : a < c.qd) (hb : b < c.qd)
    (hne : a ≠ b) : Apart (c.buf4kPa a) blksz (c.buf4kPa b) blksz := by
  have hn := n2mbPage_eq h
  have hpos : 0 < n2mbPage c.qd := by have := h.pos; omega
  have hda : a / n2mbPage c.qd < 512 := (Nat.div_lt_iff_lt_mul hpos).mpr (by omega)
  have hdb : b / n2mbPage c.qd < 512 := (Nat.div_lt_iff_lt_mul hpos).mpr (by omega)
  unfold QpConfig.buf4kPa Apart
  rw [blksz]
  by_cases hpage : a % n2mbPage c.qd = b % n2mbPage c.qd
  · have hlow : a / n2mbPage c.qd ≠ b / n2mbPage c.qd := by
      intro he
      apply hne
      rw [← Nat.div_add_mod a (n2mbPage c.qd), ← Nat.div_add_mod b (n2mbPage c.qd), he, hpage]
    rw [hpage]
    omega
  · have hp := h.apart _ (Nat.mod_lt a hpos) _ (Nat.mod_lt b hpos) hpage
    unfold Apart at hp
    omega

/-! ### Slots -/

/-- What holds of every command and of a new one. -/
theorem forall_claim {P : ℕ → Cmd → Prop} {cmd : ℕ → Cmd} {issued : ℕ} {x : Cmd}
    (h : ∀ i < issued, P i (cmd i)) (hx : P issued x) :
    ∀ i < issued + 1, P i (Function.update cmd issued x i) := by
  intro i hi
  by_cases he : i = issued
  · subst he
    rwa [Function.update_self]
  · rw [Function.update_of_ne he]
    exact h i (by omega)

section Slots

variable {qd issued sqTail : ℕ} {cmd : ℕ → Cmd} {doneFlag : ℕ → ℕ}

theorem Slots.claim (h : Slots qd cmd issued doneFlag sqTail) {r : Request} (hr : r.Fits)
    (hfree : doneFlag sqTail ≠ 0) :
    Slots qd (Function.update cmd issued ⟨r, sqTail, .claimed⟩) (issued + 1)
      (Function.update doneFlag sqTail 0) ((sqTail + 1) % qd) := by
  have hother : ∀ i < issued, (cmd i).stage ≠ .consumed → (cmd i).cid ≠ sqTail :=
    fun i hi hs he => hfree (he ▸ h.busy i hi hs)
  refine ⟨Nat.mod_lt _ (Nat.zero_lt_of_lt h.tail),
    forall_claim (P := fun _ x => x.cid < qd) h.cid_lt h.tail,
    forall_claim (P := fun _ x => x.req.Fits) h.fits hr, ?_, ?_⟩
  · refine forall_claim (P := fun _ x => x.stage ≠ .consumed →
      Function.update doneFlag sqTail 0 x.cid = 0) (fun i hi hs => ?_) fun _ => Function.update_self ..
    rw [Function.update_of_ne (hother i hi hs)]
    exact h.busy i hi hs
  · intro i hi k hk hsi hsk hc
    have hold : ∀ l < issued + 1, l ≠ issued → l < issued := fun l hl hne => by omega
    by_cases hei : i = issued
    · by_cases hek : k = issued
      · rw [hei, hek]
      · rw [hei, Function.update_self, Function.update_of_ne hek] at hc
        rw [Function.update_of_ne hek] at hsk
        exact absurd hc.symm (hother k (hold k hk hek) hsk)
    · rw [Function.update_of_ne hei] at hsi hc
      by_cases hek : k = issued
      · rw [hek, Function.update_self] at hc
        exact absurd hc (hother i (hold i hi hei) hsi)
      · rw [Function.update_of_ne hek] at hsk hc
        exact h.distinct i (hold i hi hei) k (hold k hk hek) hsi hsk hc

/-- A stage of a command that was not consumed may change. -/
theorem Slots.setStage (h : Slots qd cmd issued doneFlag sqTail) {i : ℕ}
    (hs : (cmd i).stage ≠ .consumed) (st : Stage) :
    Slots qd (setStage cmd i st) issued doneFlag sqTail := by
  have hback : ∀ k, (Nvme.setStage cmd i st k).stage ≠ .consumed → (cmd k).stage ≠ .consumed := by
    intro k hk
    by_cases he : k = i
    · subst he; exact hs
    · rwa [setStage_of_ne cmd st he] at hk
  refine ⟨h.tail, ?_, ?_, ?_, ?_⟩
  · intro k hk
    rw [setStage_cid]
    exact h.cid_lt k hk
  · intro k hk
    rw [setStage_req]
    exact h.fits k hk
  · intro k hk hsk
    rw [setStage_cid]
    exact h.busy k hk (hback k hsk)
  · intro k hk l hl hsk hsl hc
    rw [setStage_cid, setStage_cid] at hc
    exact h.distinct k hk l hl (hback k hsk) (hback l hsl) hc

/-- Setting `done_flag` where a command was consumed. -/
theorem Slots.consume (h : Slots qd cmd issued doneFlag sqTail) {i : ℕ} (hi : i < issued)
    (hs : (cmd i).stage ≠ .consumed) :
    Slots qd (Nvme.setStage cmd i .consumed) issued (Function.update doneFlag (cmd i).cid 1) sqTail := by
  have h' := h.setStage hs .consumed
  refine ⟨h'.tail, h'.cid_lt, h'.fits, ?_, h'.distinct⟩
  intro k hk hsk
  have hne : k ≠ i := by
    rintro rfl
    exact hsk (setStage_self cmd k .consumed)
  have hsk' : (cmd k).stage ≠ .consumed := by rwa [setStage_of_ne cmd _ hne] at hsk
  have hcid : (cmd k).cid ≠ (cmd i).cid := fun he => hne (h.distinct k hk i hi hsk' hs he)
  rw [setStage_cid, Function.update_of_ne hcid]
  exact h.busy k hk hsk'

/-- As many commands as are not consumed fit the slots. -/
theorem Slots.length_le (h : Slots qd cmd issued doneFlag sqTail) {l : List ℕ} (hl : l.Nodup)
    (hbusy : ∀ i ∈ l, i < issued ∧ (cmd i).stage ≠ .consumed) : l.length ≤ qd := by
  have hnd : (l.map fun i => (cmd i).cid).Nodup := by
    refine hl.map_on fun i hi k hk he => ?_
    exact h.distinct i (hbusy i hi).1 k (hbusy k hk).1 (hbusy i hi).2 (hbusy k hk).2 he
  have hsub : (l.map fun i => (cmd i).cid) ⊆ List.range qd := by
    intro x hx
    obtain ⟨i, hi, rfl⟩ := List.mem_map.mp hx
    exact List.mem_range.mpr (h.cid_lt i (hbusy i hi).1)
  have hle := (hnd.subperm hsub).length_le
  rwa [List.length_map, List.length_range] at hle

end Slots

/-! ### Memory -/

section Wiring

variable {c : QpConfig} {issued : ℕ} {cmd : ℕ → Cmd} {sqcq rbuf len : ℕ → ℕ}

theorem opc_lt (r : Request) : r.opc < 2 ^ 8 := by
  unfold Request.opc
  split_ifs <;> decide

@[simp] theorem sqeOf_setStage (c : QpConfig) (cmd : ℕ → Cmd) (i : ℕ) (st : Stage) (k : ℕ) :
    sqeOf c (setStage cmd i st k) = sqeOf c (cmd k) := by simp [sqeOf]

theorem Stage.Written.wired {st : Stage} (h : st.Written) : st.Wired := by
  cases st <;> trivial

theorem Stage.Wired.not_consumed {st : Stage} (h : st.Wired) : st ≠ .consumed := by
  rintro rfl
  exact h

theorem Wiring.claim (h : Wiring c cmd issued sqcq rbuf len) (r : Request) (cid : ℕ) :
    Wiring c (Function.update cmd issued ⟨r, cid, .claimed⟩) (issued + 1) sqcq rbuf len := by
  refine ⟨h.slotCid, ?_, ?_, ?_, ?_⟩
  · exact forall_claim (P := fun _ x => x.stage.Wired → rbuf x.cid = x.req.rbuf) h.rbuf_eq False.elim
  · exact forall_claim (P := fun _ x => x.stage.Wired → len x.cid = x.req.rlen) h.len_eq False.elim
  · exact forall_claim (P := fun _ x => x.stage.Written → readSqe sqcq x.cid = sqeOf c x) h.written
      False.elim
  · exact forall_claim (P := fun _ x => ∀ e, x.stage = .executed e → e = sqeOf c x) h.fetched
      fun e he => by cases he

/-- A stage may change where it asks for nothing new. -/
theorem Wiring.setStage (h : Wiring c cmd issued sqcq rbuf len) (i : ℕ) {st : Stage}
    (hw : st.Wired → (cmd i).stage.Wired) (hr : st.Written → (cmd i).stage.Written)
    (he : ∀ e, st = .executed e → e = sqeOf c (cmd i)) :
    Wiring c (setStage cmd i st) issued sqcq rbuf len := by
  have hw' : ∀ k, (Nvme.setStage cmd i st k).stage.Wired → (cmd k).stage.Wired := by
    intro k hk
    by_cases hki : k = i
    · subst hki
      rw [setStage_self] at hk
      exact hw hk
    · rwa [setStage_of_ne cmd st hki] at hk
  refine ⟨h.slotCid, ?_, ?_, ?_, ?_⟩
  · intro k hk hs
    rw [setStage_cid, setStage_req]
    exact h.rbuf_eq k hk (hw' k hs)
  · intro k hk hs
    rw [setStage_cid, setStage_req]
    exact h.len_eq k hk (hw' k hs)
  · intro k hk hs
    rw [setStage_cid, sqeOf_setStage]
    by_cases hki : k = i
    · subst hki
      rw [setStage_self] at hs
      exact h.written k hk (hr hs)
    · rw [setStage_of_ne cmd st hki] at hs
      exact h.written k hk hs
  · intro k hk e hs
    rw [sqeOf_setStage]
    by_cases hki : k = i
    · subst hki
      rw [setStage_self] at hs
      exact he e hs
    · rw [setStage_of_ne cmd st hki] at hs
      exact h.fetched k hk e hs

/-- The stores of a request to its slot, which no other unconsumed command holds. -/
theorem Wiring.fill (h : Wiring c cmd issued sqcq rbuf len) {i : ℕ}
    (hcid : (cmd i).cid < c.qd)
    (hother : ∀ k < issued, k ≠ i → (cmd k).stage ≠ .consumed → (cmd k).cid ≠ (cmd i).cid) :
    Wiring c (Nvme.setStage cmd i .filled) issued
      (writeSqe sqcq (cmd i).cid (cmd i).req.opc (c.buf4kPa (cmd i).cid)
        (reqCdw10 c.nd (cmd i).req.lba) (cmd i).req.cdw12)
      (Function.update rbuf (cmd i).cid (cmd i).req.rbuf)
      (Function.update len (cmd i).cid (cmd i).req.rlen) := by
  have hread := readSqe_writeSqe sqcq (cmd i).cid (c.buf4kPa (cmd i).cid)
    (reqCdw10 c.nd (cmd i).req.lba) (cmd i).req.cdw12 (opc_lt (cmd i).req)
  refine ⟨?_, ?_, ?_, ?_, ?_⟩
  · intro t ht
    by_cases he : t = (cmd i).cid
    · rw [he, hread]
      exact h.slotCid _ hcid
    · rw [readSqe_writeSqe_of_ne _ _ _ _ _ he]
      exact h.slotCid t ht
  · intro k hk hs
    rw [setStage_cid, setStage_req]
    by_cases he : k = i
    · rw [he, Function.update_self]
    · rw [setStage_of_ne cmd _ he] at hs
      rw [Function.update_of_ne (hother k hk he hs.not_consumed)]
      exact h.rbuf_eq k hk hs
  · intro k hk hs
    rw [setStage_cid, setStage_req]
    by_cases he : k = i
    · rw [he, Function.update_self]
    · rw [setStage_of_ne cmd _ he] at hs
      rw [Function.update_of_ne (hother k hk he hs.not_consumed)]
      exact h.len_eq k hk hs
  · intro k hk hs
    rw [setStage_cid, sqeOf_setStage]
    by_cases he : k = i
    · rw [he, hread, h.slotCid _ hcid, sqeOf]
    · rw [setStage_of_ne cmd _ he] at hs
      rw [readSqe_writeSqe_of_ne _ _ _ _ _ (hother k hk he hs.wired.not_consumed)]
      exact h.written k hk hs
  · intro k hk e hs
    rw [sqeOf_setStage]
    by_cases he : k = i
    · subst he
      rw [setStage_self] at hs
      cases hs
    · rw [setStage_of_ne cmd _ he] at hs
      exact h.fetched k hk e hs

/-- The entries that the drive writes are not submission entries. -/
theorem Wiring.writeCqe (h : Wiring c cmd issued sqcq rbuf len) {i : ℕ} (hi : i < 1024) (x : Cqe) :
    Wiring c cmd issued (writeCqe sqcq i x) rbuf len := by
  refine ⟨?_, h.rbuf_eq, h.len_eq, ?_, h.fetched⟩
  · intro t ht
    rw [readSqe_writeCqe _ _ (by omega)]
    exact h.slotCid t ht
  · intro k hk hs
    rw [readSqe_writeCqe _ _ (by omega)]
    exact h.written k hk hs

end Wiring

/-! ### The completion queue -/

section CqRing

variable {qd issued taken cqHead : ℕ} {cmd : ℕ → Cmd} {posted : List ℕ} {sqcq : ℕ → ℕ}
  {cqPhase : Bool}

theorem CqRing.not_mem (h : CqRing qd cmd issued posted taken sqcq cqHead cqPhase) {i : ℕ}
    (hi : i < issued) (hp : (cmd i).stage ≠ .posted) (hc : (cmd i).stage ≠ .consumed) :
    i ∉ posted := by
  intro hm
  rw [← List.take_append_drop taken posted, List.mem_append] at hm
  rcases hm with hm | hm
  · exact hc ((h.isConsumed i hi).mpr hm)
  · exact hp ((h.isPosted i hi).mpr hm)

theorem CqRing.claim (h : CqRing qd cmd issued posted taken sqcq cqHead cqPhase) (r : Request)
    (cid : ℕ) :
    CqRing qd (Function.update cmd issued ⟨r, cid, .claimed⟩) (issued + 1) posted taken sqcq cqHead
      cqPhase := by
  have hne : ∀ i ∈ posted, i ≠ issued := fun i hi => (h.posted_lt i hi).ne
  have hmap : (posted.map fun i => (Function.update cmd issued ⟨r, cid, .claimed⟩ i).cid) =
      posted.map fun i => (cmd i).cid :=
    List.map_congr_left fun i hi => by rw [Function.update_of_ne (hne i hi)]
  refine ⟨by rw [hmap]; exact h.holds, h.head, h.phase, h.taken_le, h.bound,
    fun i hi => Nat.lt_succ_of_lt (h.posted_lt i hi), h.nodup, ?_, ?_⟩
  · exact forall_claim (P := fun i x => x.stage = .posted ↔ i ∈ posted.drop taken) h.isPosted
      (iff_of_false (by simp) fun hm => hne _ (List.mem_of_mem_drop hm) rfl)
  · exact forall_claim (P := fun i x => x.stage = .consumed ↔ i ∈ posted.take taken) h.isConsumed
      (iff_of_false (by simp) fun hm => hne _ (List.mem_of_mem_take hm) rfl)

/-- Stages before the completion do not matter to the ring. -/
theorem CqRing.setStage (h : CqRing qd cmd issued posted taken sqcq cqHead cqPhase) {i : ℕ}
    (hi : i < issued) (hp : (cmd i).stage ≠ .posted) (hc : (cmd i).stage ≠ .consumed) {st : Stage}
    (hp' : st ≠ .posted) (hc' : st ≠ .consumed) :
    CqRing qd (setStage cmd i st) issued posted taken sqcq cqHead cqPhase := by
  have hm := h.not_mem hi hp hc
  refine ⟨by simpa only [setStage_cid] using h.holds, h.head, h.phase, h.taken_le, h.bound,
    h.posted_lt, h.nodup, ?_, ?_⟩
  · intro k hk
    by_cases he : k = i
    · subst he
      rw [setStage_self]
      exact iff_of_false hp' fun h => hm (List.mem_of_mem_drop h)
    · rw [setStage_of_ne cmd st he]
      exact h.isPosted k hk
  · intro k hk
    by_cases he : k = i
    · subst he
      rw [setStage_self]
      exact iff_of_false hc' fun h => hm (List.mem_of_mem_take h)
    · rw [setStage_of_ne cmd st he]
      exact h.isConsumed k hk

theorem CqRing.writeSqe (h : CqRing qd cmd issued posted taken sqcq cqHead cqPhase) (hqd : 0 < qd)
    (hle : qd ≤ 1024) (i opc prp1 cdw10 cdw12 : ℕ) :
    CqRing qd cmd issued posted taken (writeSqe sqcq i opc prp1 cdw10 cdw12) cqHead cqPhase :=
  { h with holds := h.holds.congr hqd fun k hk => cqSlot_writeSqe _ _ _ _ _ (by omega) }

/-- There is room for the completion of every command. -/
theorem CqRing.room (h : CqRing qd cmd issued posted taken sqcq cqHead cqPhase) {doneFlag : ℕ → ℕ}
    {sqTail : ℕ} (hslots : Slots qd cmd issued doneFlag sqTail) {i : ℕ} (hi : i < issued)
    (hp : (cmd i).stage ≠ .posted) (hc : (cmd i).stage ≠ .consumed) : posted.length < taken + qd := by
  have hnd : (i :: posted.drop taken).Nodup :=
    List.nodup_cons.mpr ⟨fun hm => h.not_mem hi hp hc (List.mem_of_mem_drop hm),
      h.nodup.sublist (List.drop_sublist _ _)⟩
  have hle := hslots.length_le hnd fun k hk => by
    rcases List.mem_cons.mp hk with rfl | hk
    · exact ⟨hi, hc⟩
    · have hlt := h.posted_lt k (List.mem_of_mem_drop hk)
      exact ⟨hlt, by rw [(h.isPosted k hlt).mpr hk]; simp⟩
  rw [List.length_cons, List.length_drop] at hle
  omega

/-- The drive's next entry. -/
theorem CqRing.post (h : CqRing qd cmd issued posted taken sqcq cqHead cqPhase) {i : ℕ}
    (hi : i < issued) (hp : (cmd i).stage ≠ .posted) (hc : (cmd i).stage ≠ .consumed)
    (hroom : posted.length < taken + qd) (hcid : (cmd i).cid < 2 ^ 16) (x : Cqe) :
    CqRing qd (Nvme.setStage cmd i .posted) issued (posted ++ [i]) taken
      (writeCqe sqcq (posted.length % qd) { x with cid := (cmd i).cid, p := tag qd posted.length })
      cqHead cqPhase := by
  have hm := h.not_mem hi hp hc
  have hle := h.taken_le
  refine ⟨?_, h.head, h.phase, ?_, ?_, ?_, ?_, ?_, ?_⟩
  · have hpost := h.holds.post (cmd i).cid
    rw [List.length_map] at hpost
    rw [cqSlot_writeCqe _ _ hcid]
    simpa only [setStage_cid, List.map_append, List.map_cons, List.map_nil] using hpost
  · rw [List.length_append, List.length_singleton]
    omega
  · rw [List.length_append, List.length_singleton]
    omega
  · intro k hk
    rcases List.mem_append.mp hk with hk | hk
    · exact h.posted_lt k hk
    · rw [List.mem_singleton.mp hk]
      exact hi
  · exact List.nodup_append.mpr ⟨h.nodup, List.nodup_singleton i, fun a ha b hb he =>
      hm (by rw [← List.mem_singleton.mp hb, ← he]; exact ha)⟩
  · intro k hk
    rw [List.drop_append_of_le_length hle, List.mem_append, List.mem_singleton]
    by_cases he : k = i
    · subst he
      rw [setStage_self]
      exact iff_of_true rfl (Or.inr rfl)
    · rw [setStage_of_ne cmd _ he, h.isPosted k hk]
      simp [he]
  · intro k hk
    rw [List.take_append_of_le_length hle]
    by_cases he : k = i
    · subst he
      rw [setStage_self]
      exact iff_of_false (by simp) fun h => hm (List.mem_of_mem_take h)
    · rw [setStage_of_ne cmd _ he]
      exact h.isConsumed k hk

/-- `check_cq` takes the next entry. -/
theorem CqRing.take (h : CqRing qd cmd issued posted taken sqcq cqHead cqPhase) (hqd : 0 < qd)
    {i : ℕ} (hi : posted[taken]? = some i) :
    CqRing qd (Nvme.setStage cmd i .consumed) issued posted (taken + 1) sqcq (nextHead qd cqHead)
      (nextPhase qd cqHead cqPhase) := by
  obtain ⟨hlt, hget⟩ := List.getElem?_eq_some_iff.mp hi
  have hdrop : posted.drop taken = i :: posted.drop (taken + 1) := by
    rw [List.drop_eq_getElem_cons hlt, hget]
  have htake : posted.take (taken + 1) = posted.take taken ++ [i] := by
    rw [← List.take_append_getElem hlt, hget]
  have hnd := h.nodup
  rw [← List.take_append_drop (taken + 1) posted, htake] at hnd
  have hlater : i ∉ posted.drop (taken + 1) := fun hm =>
    (List.nodup_append.mp hnd).2.2 i (by simp) i hm rfl
  have hbound := h.bound
  refine ⟨by simpa only [setStage_cid] using h.holds, ?_, ?_, hlt, by omega, h.posted_lt, h.nodup, ?_,
    ?_⟩
  · rw [h.head, nextHead_mod hqd]
  · rw [h.head, h.phase, nextPhase_tag hqd]
  · intro k hk
    by_cases he : k = i
    · subst he
      rw [setStage_self]
      exact iff_of_false (by simp) hlater
    · rw [setStage_of_ne cmd _ he, h.isPosted k hk, hdrop, List.mem_cons]
      simp [he]
  · intro k hk
    rw [htake, List.mem_append, List.mem_singleton]
    by_cases he : k = i
    · subst he
      rw [setStage_self]
      exact iff_of_true rfl (Or.inr rfl)
    · rw [setStage_of_ne cmd _ he, h.isConsumed k hk]
      simp [he]

/-- The phase bit matches exactly when a completion waits, and then the entry is its. -/
theorem CqRing.phase_iff (h : CqRing qd cmd issued posted taken sqcq cqHead cqPhase) (hqd : 0 < qd) :
    cqeP sqcq cqHead = cqPhase ↔ taken < posted.length := by
  have ht := h.holds.tag_iff hqd (c := taken)
  rw [List.length_map] at ht
  rw [h.head, h.phase]
  exact ht h.taken_le h.bound

theorem CqRing.head_cid (h : CqRing qd cmd issued posted taken sqcq cqHead cqPhase)
    (hlt : taken < posted.length) : cqeCid sqcq cqHead = (cmd posted[taken]).cid := by
  have hf := h.holds.fresh (c := taken) (by rwa [List.length_map]) (by
    rw [List.length_map]
    exact h.bound)
  rw [h.head]
  rw [List.getElem_map] at hf
  exact congrArg Prod.fst hf

end CqRing

/-! ### Steps -/

/-- The lock's holder has a command that is not submitted. -/
def HostPc.Holding : HostPc → Prop
  | .fill _ _ | .doorbell _ _ => True
  | _ => False

theorem Handed.none {cmd : ℕ → Cmd} {issued : ℕ} {pc : HostPc} (h : Handed cmd issued pc)
    (hpc : ¬ pc.Holding) {i : ℕ} (hi : i < issued) :
    (cmd i).stage ≠ .claimed ∧ (cmd i).stage ≠ .filled := by
  constructor
  · intro hs
    obtain ⟨-, r, cid, rfl⟩ := h.claimed i hi hs
    exact hpc trivial
  · intro hs
    obtain ⟨-, r, cid, rfl⟩ := h.filled i hi hs
    exact hpc trivial

/-- Without a command in hand the holder may be anywhere. -/
theorem Handed.move {cmd : ℕ → Cmd} {issued : ℕ} {pc : HostPc} (h : Handed cmd issued pc)
    (hpc : ¬ pc.Holding) (pc' : HostPc) : Handed cmd issued pc' :=
  ⟨fun _ hi hs => absurd hs (h.none hpc hi).1, fun _ hi hs => absurd hs (h.none hpc hi).2⟩

theorem Handed.setStage {cmd : ℕ → Cmd} {issued : ℕ} {pc : HostPc} (h : Handed cmd issued pc)
    (i : ℕ) {st : Stage} (hc : st ≠ .claimed) (hf : st ≠ .filled) :
    Handed (setStage cmd i st) issued pc := by
  constructor
  · intro k hk hs
    by_cases he : k = i
    · subst he
      rw [setStage_self] at hs
      exact absurd hs hc
    · rw [setStage_of_ne cmd st he] at hs
      exact h.claimed k hk hs
  · intro k hk hs
    by_cases he : k = i
    · subst he
      rw [setStage_self] at hs
      exact absurd hs hf
    · rw [setStage_of_ne cmd st he] at hs
      exact h.filled k hk hs

@[simp] theorem copyOf_setStage (cmd : ℕ → Cmd) (i : ℕ) (st : Stage) :
    copyOf (setStage cmd i st) = copyOf cmd := by
  funext k
  simp [copyOf]

theorem copyOf_claim {cmd : ℕ → Cmd} {issued : ℕ} (x : Cmd) {l : List ℕ} (hl : ∀ i ∈ l, i < issued) :
    l.filterMap (copyOf (Function.update cmd issued x)) = l.filterMap (copyOf cmd) :=
  List.filterMap_congr fun i hi => by
    rw [copyOf, copyOf, Function.update_of_ne (hl i hi).ne]

section Steps

variable {c : QpConfig}

theorem inv_newQueue (hc : c.Valid) : QueueInv c (newQueue c.qd) where
  slots := by
    refine ⟨hc.pos, ?_, ?_, ?_, ?_⟩ <;> intro i hi <;> exact absurd hi (Nat.not_lt_zero i)
  wiring := by
    have hle := hc.le
    refine ⟨fun t ht => initSqcq_cid ht (by omega), ?_, ?_, ?_, ?_⟩ <;> intro i hi <;>
      exact absurd hi (Nat.not_lt_zero i)
  ring := by
    refine ⟨holds_nil fun i _ => initSqcq_p _ i, (Nat.zero_mod _).symm, (tag_zero _).symm, le_rfl,
      Nat.zero_le _, ?_, List.nodup_nil, ?_, ?_⟩
    · intro i hi
      cases hi
    all_goals
      intro i hi
      exact absurd hi (Nat.not_lt_zero i)
  pcInv := trivial
  handed := by
    constructor <;> intro i hi <;> exact absurd hi (Nat.not_lt_zero i)
  copies := rfl

theorem QueueInv.request {q : Queue} (h : QueueInv c q) (hpc : q.pc = .idle) {r : Request}
    (hr : r.Fits) : QueueInv c { q with pc := .newSqe r } := by
  have hcopies := h.copies
  rw [hpc] at hcopies
  exact ⟨h.slots, h.wiring, h.ring, hr, h.handed.move (by rw [hpc]; exact id) _, hcopies⟩

theorem QueueInv.call {q : Queue} (h : QueueInv c q) (hpc : q.pc = .idle) :
    QueueInv c { q with pc := .checkCq none } := by
  have hcopies := h.copies
  rw [hpc] at hcopies
  exact ⟨h.slots, h.wiring, h.ring, trivial, h.handed.move (by rw [hpc]; exact id) _, hcopies⟩

theorem QueueInv.newSqe {q : Queue} (h : QueueInv c q) {r : Request} (hpc : q.pc = .newSqe r) :
    QueueInv c (newSqe c r q) := by
  have hcopies := h.copies
  have hfits := h.pcInv
  rw [hpc] at hcopies hfits
  have hhold : ¬ q.pc.Holding := by rw [hpc]; exact id
  by_cases hf : q.doneFlag q.sqTail = 0
  · rw [Nvme.newSqe, if_pos hf]
    exact ⟨h.slots, h.wiring, h.ring, hfits, h.handed.move hhold _, hcopies⟩
  · rw [Nvme.newSqe, if_neg hf]
    refine ⟨h.slots.claim hfits hf, h.wiring.claim r _, h.ring.claim r _, ?_, ⟨?_, ?_⟩, ?_⟩
    · exact ⟨Nat.succ_pos _, Function.update_self ..⟩
    · exact forall_claim (P := fun i x => x.stage = .claimed → i + 1 = q.issued + 1 ∧
        ∃ r' cid, HostPc.fill r q.sqTail = .fill r' cid)
        (fun i hi hs => absurd hs (h.handed.none hhold hi).1) fun _ => ⟨rfl, r, _, rfl⟩
    · exact forall_claim (P := fun i x => x.stage = .filled → i + 1 = q.issued + 1 ∧
        ∃ r' cid, HostPc.fill r q.sqTail = .doorbell r' cid)
        (fun i hi hs => absurd hs (h.handed.none hhold hi).2) fun hs => by cases hs
    · rw [hcopies]
      exact (copyOf_claim _ fun i hi => h.ring.posted_lt i (List.mem_of_mem_take hi)).symm

/-- The command in the holder's hand is the last one, before it is filled. -/
theorem QueueInv.filling {q : Queue} (h : QueueInv c q) {r : Request} {cid : ℕ} (hpc : q.pc = .fill r cid) :
    q.issued - 1 < q.issued ∧ q.cmd (q.issued - 1) = ⟨r, cid, .claimed⟩ := by
  have hlast := h.pcInv
  rw [hpc] at hlast
  exact ⟨Nat.sub_lt hlast.1 Nat.one_pos, hlast.2⟩

/-- And until its doorbell is rung. -/
theorem QueueInv.ringing {q : Queue} (h : QueueInv c q) {r : Request} {cid : ℕ} (hpc : q.pc = .doorbell r cid) :
    q.issued - 1 < q.issued ∧ q.cmd (q.issued - 1) = ⟨r, cid, .filled⟩ := by
  have hlast := h.pcInv
  rw [hpc] at hlast
  exact ⟨Nat.sub_lt hlast.1 Nat.one_pos, hlast.2⟩

theorem QueueInv.ringing_cid_lt {q : Queue} (h : QueueInv c q) {r : Request} {cid : ℕ}
    (hpc : q.pc = .doorbell r cid) : cid < c.qd := by
  obtain ⟨hi, hlast⟩ := h.ringing hpc
  have hcid := h.slots.cid_lt _ hi
  rwa [hlast] at hcid

theorem QueueInv.fill {s : Port} (h : QueueInv c s.queue) (hc : c.Valid) {r : Request} {cid : ℕ}
    (hpc : s.queue.pc = .fill r cid) : QueueInv c (fill c r cid s).queue := by
  have hcopies := h.copies
  rw [hpc] at hcopies
  obtain ⟨hi, hlast⟩ := h.filling hpc
  have hpos := Nat.zero_lt_of_lt hi
  have hstage : (s.queue.cmd (s.queue.issued - 1)).stage = .claimed := by rw [hlast]
  have hcid : (s.queue.cmd (s.queue.issued - 1)).cid = cid := by rw [hlast]
  have hreq : (s.queue.cmd (s.queue.issued - 1)).req = r := by rw [hlast]
  have hw := h.wiring.fill (h.slots.cid_lt _ hi) fun k hk hne hs he =>
    hne (h.slots.distinct k hk _ hi hs (by rw [hstage]; simp) he)
  rw [hcid, hreq] at hw
  refine ⟨h.slots.setStage (by rw [hstage]; simp) _, hw, ?_, ⟨hpos, ?_⟩, ⟨?_, ?_⟩, ?_⟩
  · exact (h.ring.setStage hi (by rw [hstage]; simp) (by rw [hstage]; simp) (by simp)
      (by simp)).writeSqe hc.pos hc.le _ _ _ _ _
  · simp [Nvme.fill, setStage, hlast]
  · intro k hk hs
    change k < s.queue.issued at hk
    by_cases he : k = s.queue.issued - 1
    · subst he
      simp [Nvme.fill] at hs
    · simp only [Nvme.fill, setStage_of_ne _ _ he] at hs
      have := (h.handed.claimed k hk hs).1
      omega
  · intro k hk hs
    change k < s.queue.issued at hk
    by_cases he : k = s.queue.issued - 1
    · refine ⟨?_, r, cid, rfl⟩
      change k + 1 = s.queue.issued
      omega
    · simp only [Nvme.fill, setStage_of_ne _ _ he] at hs
      obtain ⟨-, r', cid', hp⟩ := h.handed.filled k hk hs
      rw [hpc] at hp
      cases hp
  · simpa [Nvme.fill, copied] using hcopies

theorem QueueInv.doorbell {q : Queue} (h : QueueInv c q) {r : Request} {cid : ℕ}
    (hpc : q.pc = .doorbell r cid) : QueueInv c (doorbell q) := by
  have hcopies := h.copies
  rw [hpc] at hcopies
  obtain ⟨hi, hlast⟩ := h.ringing hpc
  have hstage : (q.cmd (q.issued - 1)).stage = .filled := by rw [hlast]
  refine ⟨h.slots.setStage (by rw [hstage]; simp) _,
    h.wiring.setStage _ (fun _ => by rw [hstage]; trivial) (fun _ => by rw [hstage]; trivial)
      (fun e he => by cases he),
    h.ring.setStage hi (by rw [hstage]; simp) (by rw [hstage]; simp) (by simp) (by simp), trivial,
    ⟨?_, ?_⟩, by simpa [Nvme.doorbell, copied] using hcopies⟩
  · intro k hk hs
    by_cases he : k = q.issued - 1
    · subst he
      simp [Nvme.doorbell] at hs
    · simp only [Nvme.doorbell, setStage_of_ne _ _ he] at hs
      have := (h.handed.claimed k hk hs).1
      omega
  · intro k hk hs
    by_cases he : k = q.issued - 1
    · subst he
      simp [Nvme.doorbell] at hs
    · simp only [Nvme.doorbell, setStage_of_ne _ _ he] at hs
      have := (h.handed.filled k hk hs).1
      omega

theorem QueueInv.testPhase {q : Queue} (h : QueueInv c q) (hc : c.Valid) {back : Option Request}
    (hpc : q.pc = .checkCq back) : QueueInv c (testPhase back q) := by
  have hcopies := h.copies
  have hfits := h.pcInv
  rw [hpc] at hcopies hfits
  have hhold : ¬ q.pc.Holding := by rw [hpc]; exact id
  have hback : ∀ r, back = some r → r.Fits := by
    rintro r rfl
    exact hfits
  by_cases hp : cqeP q.sqcq q.cqHead = q.cqPhase
  · have hlt := (h.ring.phase_iff hc.pos).mp hp
    simp only [Nvme.testPhase, if_pos hp]
    refine ⟨h.slots, h.wiring, h.ring, ⟨⟨q.posted[q.taken], ?_, ?_⟩, hback⟩, h.handed.move hhold _,
      hcopies⟩
    · exact List.getElem?_eq_getElem hlt
    · exact (h.ring.head_cid hlt).symm
  · simp only [Nvme.testPhase, if_neg hp]
    cases back with
    | none => exact ⟨h.slots, h.wiring, h.ring, trivial, h.handed.move hhold _, hcopies⟩
    | some r => exact ⟨h.slots, h.wiring, h.ring, hback r rfl, h.handed.move hhold _, hcopies⟩

/-- The next completion to consume is that of a command which was completed. -/
theorem QueueInv.next_posted {q : Queue} (h : QueueInv c q) {i : ℕ}
    (hget : q.posted[q.taken]? = some i) : i < q.issued ∧ (q.cmd i).stage = .posted := by
  obtain ⟨hlt, hi⟩ := List.getElem?_eq_some_iff.mp hget
  have hissued := h.ring.posted_lt i (hi ▸ List.getElem_mem hlt)
  refine ⟨hissued, (h.ring.isPosted i hissued).mpr ?_⟩
  rw [List.drop_eq_getElem_cons hlt, hi]
  exact List.mem_cons_self

/-- The completion of command `i` is to be copied, if that is a read. -/
structure Copying (c : QpConfig) (s : Port) (back : Option Request) (cid i : ℕ) : Prop where
  next : s.queue.posted[s.queue.taken]? = some i
  cid_eq : (s.queue.cmd i).cid = cid
  lt : i < s.queue.issued
  posted : (s.queue.cmd i).stage = .posted
  write : (s.queue.cmd i).req.write = true →
    copyOut c back cid s = { s with queue := { s.queue with pc := .mark back cid } }
  read : (s.queue.cmd i).req.write = false → copyOut c back cid s = { s with
    user := blit s.user s.queue.dma (s.queue.cmd i).req.buf (c.buf4kPa cid) (s.queue.cmd i).req.len
    queue := { s.queue with
      pc := .mark back cid
      copies := s.queue.copies ++ [⟨i, (s.queue.cmd i).req.buf, cid, (s.queue.cmd i).req.len⟩] } }

/-- The slot of a completion tells what its command asked for. -/
theorem QueueInv.copying {s : Port} (h : QueueInv c s.queue) {back : Option Request} {cid : ℕ}
    (hpc : s.queue.pc = .copy back cid) : ∃ i, Copying c s back cid i := by
  have hat := h.pcInv
  rw [hpc] at hat
  obtain ⟨⟨i, hget, hcid⟩, -⟩ := hat
  obtain ⟨hi, hposted⟩ := h.next_posted hget
  have hrbuf := h.wiring.rbuf_eq i hi (by rw [hposted]; trivial)
  have hlen := h.wiring.len_eq i hi (by rw [hposted]; trivial)
  rw [hcid] at hrbuf hlen
  refine ⟨i, hget, hcid, hi, hposted, fun hwr => ?_, fun hwr => ?_⟩
  · have h0 : s.queue.rbuf cid = 0 := by simp [hrbuf, Request.rbuf, hwr]
    rw [Nvme.copyOut, if_pos h0]
  · have hbuf : s.queue.rbuf cid = (s.queue.cmd i).req.buf := by simp [hrbuf, Request.rbuf, hwr]
    have hln : s.queue.len cid = (s.queue.cmd i).req.len := by simp [hlen, Request.rlen, hwr]
    have hne : s.queue.rbuf cid ≠ 0 := by
      rw [hbuf]
      exact (h.slots.fits i hi).2 hwr
    have hgetD : s.queue.posted.getD s.queue.taken 0 = i := by simp [List.getD, hget]
    rw [Nvme.copyOut, if_neg hne, hbuf, hln, hgetD]

theorem QueueInv.copyOut {s : Port} (h : QueueInv c s.queue) {back : Option Request} {cid : ℕ}
    (hpc : s.queue.pc = .copy back cid) : QueueInv c (copyOut c back cid s).queue := by
  obtain ⟨i, hcopying⟩ := h.copying hpc
  have hcopies := h.copies
  have hat := h.pcInv
  rw [hpc] at hcopies hat
  obtain ⟨hlt, hi⟩ := List.getElem?_eq_some_iff.mp hcopying.next
  have hhold : ¬ s.queue.pc.Holding := by rw [hpc]; exact id
  have htake : s.queue.posted.take (s.queue.taken + 1) = s.queue.posted.take s.queue.taken ++ [i] := by
    rw [← List.take_append_getElem hlt, hi]
  have hnext : (s.queue.posted.take (s.queue.taken + 1)).filterMap (copyOf s.queue.cmd) =
      s.queue.copies ++ (copyOf s.queue.cmd i).toList := by
    rw [htake, List.filterMap_append, hcopies]
    cases hci : copyOf s.queue.cmd i <;> simp [hci, copied]
  cases hwr : (s.queue.cmd i).req.write with
  | true =>
    have hnone : copyOf s.queue.cmd i = none := by simp [copyOf, hwr]
    rw [hnone] at hnext
    rw [hcopying.write hwr]
    exact ⟨h.slots, h.wiring, h.ring, hat, h.handed.move hhold _, by simpa [copied] using hnext.symm⟩
  | false =>
    have hsome : copyOf s.queue.cmd i =
        some ⟨i, (s.queue.cmd i).req.buf, cid, (s.queue.cmd i).req.len⟩ := by
      simp [copyOf, hwr, hcopying.cid_eq]
    rw [hsome] at hnext
    rw [hcopying.read hwr]
    exact ⟨h.slots, h.wiring, h.ring, hat, h.handed.move hhold _, by simpa [copied] using hnext.symm⟩

/-- The completion that is consumed. -/
theorem QueueInv.marking {q : Queue} (h : QueueInv c q) {back : Option Request} {cid : ℕ}
    (hpc : q.pc = .mark back cid) : ∃ i, q.posted[q.taken]? = some i ∧ q.posted.getD q.taken 0 = i ∧
      (q.cmd i).cid = cid ∧ i < q.issued ∧ (q.cmd i).stage = .posted := by
  have hat := h.pcInv
  rw [hpc] at hat
  obtain ⟨⟨i, hget, hcid⟩, -⟩ := hat
  exact ⟨i, hget, by simp [List.getD, hget], hcid, h.next_posted hget⟩

theorem QueueInv.mark {q : Queue} (h : QueueInv c q) (hc : c.Valid) {back : Option Request} {cid : ℕ}
    (hpc : q.pc = .mark back cid) : QueueInv c (mark c back cid q) := by
  have hcopies := h.copies
  have hat := h.pcInv
  rw [hpc] at hcopies hat
  obtain ⟨-, hback⟩ := hat
  obtain ⟨i, hget, hgetD, hcid, hissued, hposted⟩ := h.marking hpc
  have hhold : ¬ q.pc.Holding := by rw [hpc]; exact id
  rw [Nvme.mark, hgetD, ← hcid]
  refine ⟨h.slots.consume hissued (by rw [hposted]; simp),
    h.wiring.setStage i False.elim False.elim (fun e he => by cases he), h.ring.take hc.pos hget, ?_,
    (h.handed.move hhold _).setStage i (by simp) (by simp), by simpa [copied] using hcopies⟩
  cases back with
  | none => trivial
  | some r => exact hback r rfl

theorem QueueInv.host {s : Port} (h : QueueInv c s.queue) (hc : c.Valid) :
    QueueInv c (hostStep c s).queue := by
  unfold hostStep
  cases hpc : s.queue.pc with
  | idle => exact h
  | newSqe r => exact h.newSqe hpc
  | fill r cid => exact h.fill hc hpc
  | doorbell r cid => exact h.doorbell hpc
  | checkCq back => exact h.testPhase hc hpc
  | copy back cid => exact h.copyOut hpc
  | mark back cid => exact h.mark hc hpc

/-- The drive's work on a command does not concern the holder of the lock. -/
theorem QueueInv.pcInv_setStage {q : Queue} (h : QueueInv c q) {i : ℕ} (hi : i < q.issued)
    (hcl : (q.cmd i).stage ≠ .claimed) (hfi : (q.cmd i).stage ≠ .filled) {st : Stage} :
    PcInv (setStage q.cmd i st) q.issued q.posted q.taken q.pc := by
  have hp := h.pcInv
  have hlast : ∀ x : Cmd, q.cmd (q.issued - 1) = x → x.stage = .claimed ∨ x.stage = .filled →
      setStage q.cmd i st (q.issued - 1) = x := by
    rintro x rfl hx
    refine setStage_of_ne _ _ ?_
    rintro rfl
    exact hx.elim hcl hfi
  cases hpc : q.pc with
  | fill r cid =>
    rw [hpc] at hp
    exact ⟨hp.1, hlast _ hp.2 (Or.inl rfl)⟩
  | doorbell r cid =>
    rw [hpc] at hp
    exact ⟨hp.1, hlast _ hp.2 (Or.inr rfl)⟩
  | checkCq back =>
    rw [hpc] at hp
    cases back with
    | none => trivial
    | some r => exact hp
  | copy back cid | mark back cid =>
    rw [hpc] at hp
    obtain ⟨⟨k, hk, hcid⟩, hback⟩ := hp
    exact ⟨⟨k, hk, by rw [setStage_cid, hcid]⟩, hback⟩
  | newSqe r =>
    rw [hpc] at hp
    exact hp
  | idle => trivial

theorem PcInv.append {cmd : ℕ → Cmd} {issued taken : ℕ} {posted : List ℕ} {pc : HostPc}
    (h : PcInv cmd issued posted taken pc) (i : ℕ) : PcInv cmd issued (posted ++ [i]) taken pc := by
  cases pc with
  | copy back cid | mark back cid =>
    obtain ⟨⟨k, hk, hcid⟩, hback⟩ := h
    obtain ⟨hlt, -⟩ := List.getElem?_eq_some_iff.mp hk
    exact ⟨⟨k, by rw [List.getElem?_append_left hlt, hk], hcid⟩, hback⟩
  | checkCq back =>
    cases back with
    | none => trivial
    | some r => exact h
  | _ => exact h

/-- No more completions are copied than there are. -/
theorem QueueInv.copied_le {q : Queue} (h : QueueInv c q) : copied q.taken q.pc ≤ q.posted.length := by
  have hp := h.pcInv
  cases hpc : q.pc with
  | mark back cid =>
    rw [hpc] at hp
    obtain ⟨⟨k, hk, -⟩, -⟩ := hp
    exact (List.getElem?_eq_some_iff.mp hk).1
  | _ => exact h.ring.taken_le

theorem transfer_queue (e : Sqe) (s : Port) :
    ∃ dma, (transfer e s).queue = { s.queue with dma := dma } := by
  unfold transfer
  dsimp only
  split_ifs
  · exact ⟨_, rfl⟩
  · exact ⟨s.queue.dma, rfl⟩
  · exact ⟨s.queue.dma, rfl⟩

/-- Besides DMA memory, an execution changes a stage. -/
theorem exec_queue (i : ℕ) (s : Port) :
    ∃ dma, (exec i s).queue = { s.queue with
      dma := dma
      cmd := setStage s.queue.cmd i (.executed (readSqe s.queue.sqcq (s.queue.cmd i).cid)) } := by
  obtain ⟨dma, hq⟩ := transfer_queue (readSqe s.queue.sqcq (s.queue.cmd i).cid) s
  refine ⟨dma, ?_⟩
  unfold exec
  dsimp only
  rw [hq]

theorem QueueInv.exec {s : Port} (h : QueueInv c s.queue) {i : ℕ} (hi : i < s.queue.issued)
    (hs : (s.queue.cmd i).stage = .submitted) : QueueInv c (exec i s).queue := by
  have hread := h.wiring.written i hi (by rw [hs]; trivial)
  obtain ⟨dma, hq⟩ := exec_queue i s
  rw [hq, hread]
  refine ⟨h.slots.setStage (by rw [hs]; simp) _,
    h.wiring.setStage i (fun _ => by rw [hs]; trivial) False.elim ?_,
    h.ring.setStage hi (by rw [hs]; simp) (by rw [hs]; simp) (by simp) (by simp), ?_,
    h.handed.setStage i (by simp) (by simp), by simpa using h.copies⟩
  · intro e he
    cases he
    rfl
  · exact h.pcInv_setStage hi (by rw [hs]; simp) (by rw [hs]; simp)

theorem QueueInv.post {q : Queue} (h : QueueInv c q) (hc : c.Valid) {i : ℕ} (hi : i < q.issued)
    {e : Sqe} (hs : (q.cmd i).stage = .executed e) (x : Cqe) : QueueInv c (post c i e x q) := by
  have hcid : e.cid = (q.cmd i).cid := by rw [h.wiring.fetched i hi e hs]; rfl
  have hlt := h.slots.cid_lt i hi
  have hle := hc.le
  have hroom := h.ring.room h.slots hi (by rw [hs]; simp) (by rw [hs]; simp)
  have hslot : q.posted.length % c.qd < 1024 := by
    have := Nat.mod_lt q.posted.length hc.pos
    omega
  have hnot := h.ring.not_mem hi (by rw [hs]; simp) (by rw [hs]; simp)
  rw [Nvme.post, hcid]
  refine ⟨h.slots.setStage (by rw [hs]; simp) _,
    (h.wiring.setStage i (fun _ => by rw [hs]; trivial) False.elim
      (fun e he => by cases he)).writeCqe hslot _,
    h.ring.post hi (by rw [hs]; simp) (by rw [hs]; simp) hroom (by omega) x, ?_,
    h.handed.setStage i (by simp) (by simp), ?_⟩
  · exact (h.pcInv_setStage hi (by rw [hs]; simp) (by rw [hs]; simp)).append i
  · rw [copyOf_setStage, List.take_append_of_le_length h.copied_le]
    exact h.copies

/-- Any step of a queue whose lock is taken only when it is free. -/
theorem QueueInv.step {s : Port} (h : QueueInv c s.queue) (hc : c.Valid) (o : QueueStep)
    (hA : o.Admissible s.queue) : QueueInv c (o.step c s).queue := by
  cases o with
  | request r => exact h.request hA.1 hA.2
  | call => exact h.call hA
  | host => exact h.host hc
  | exec i => exact h.exec hA.1 hA.2
  | post i x =>
    obtain ⟨hi, e, hs⟩ := hA
    simp only [QueueStep.step, hs]
    exact h.post hc hi hs x

end Steps

end Pthabt.Nvme
